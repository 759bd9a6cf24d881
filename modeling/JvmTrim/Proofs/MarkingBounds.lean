import JvmTrim.Proofs.Iteration
import JvmTrim.Proofs.Provenance
import JvmTrim.Proofs.Saturation
import Mathlib.Data.List.TakeWhile

/-!
# Marking ends without faults

A body has finitely many marks: one for every offset, and two for every stack word whose origin
belongs to the body and whose position lies in some recorded stack. Every mark that follows from
another one is among them, because the words of a recorded stack come from the entry, a handler or an
instruction of the body. So a loop that sets a new mark in every step ends within that many steps.

The loops around it end for the same reason: finding what is reachable adds an offset in every step,
applying all rules makes an instruction necessary in every step, and marking again takes a handler
away.

## Main definitions

* `Evaluation.Knows`: the origins that belong to a body
* `Subject.allMarks`: all marks of a body
* `Subject.Bounded`: a body whose evaluation keeps to these

## Main results

* `Subject.Bounded.mem_of_follows`: what follows from a mark of the body is one
* `Subject.yields_propagate`, `Subject.yields_saturate`: setting marks ends within its bounds
* `Subject.yields_mark`: marking a body does not fault
-/

namespace JvmTrim

namespace Stack

variable {stack : Stack} {position : Nat} {word : Slot}

theorem mem_view_of_get? (h : stack.get? position = some word) : word ∈ stack.view :=
  List.mem_reverse.mpr (Array.mem_toList_iff.mpr (Array.mem_of_getElem? h))

theorem exists_get?_of_mem_view (h : word ∈ stack.view) :
    ∃ position, stack.get? position = some word :=
  Array.getElem?_of_mem (Array.mem_toList_iff.mp (List.mem_reverse.mp h))

theorem lt_height_of_get? (h : stack.get? position = some word) : position < stack.height :=
  (Array.getElem?_eq_some_iff.mp h).1

theorem lt_height_of_partner? {partner : Nat} (h : stack.partner? position = some partner) :
    partner < stack.height := by
  unfold partner? at h
  split at h
  · cases h
  · rename_i word hword
    have hlt := lt_height_of_get? hword
    split at h
    · split at h
      · cases h
      · cases h
        omega
    · split at h
      · rename_i hupper
        cases h
        cases hnext : stack.get? (position + 1) with
        | none => simp [hnext] at hupper
        | some upper => exact lt_height_of_get? hnext
      · cases h

end Stack

/-! ## Where stack words come from -/

namespace Evaluation

/-- Whether an origin belongs to a body: it is the entry, one of the handlers, or an offset inside. -/
def Knows (evaluation : Evaluation) (handlers : List Handler) : Origin → Prop
  | .entry => True
  | .handler target => ∃ handler ∈ handlers, handler.target = target
  | .instruction offset => offset < evaluation.size

variable {evaluation : Evaluation} {options : EvaluationOptions} {pool : ConstantPool}
  {handlers : List Handler} {entry frame : Frame} {offset : Nat}

/-- **The words of every frame of an evaluation come from the body.** -/
theorem Arises.knows (hread : evaluation.listing.Read) (hempty : entry.stack = Stack.empty)
    (h : evaluation.Arises options pool handlers entry offset frame) :
    ∀ word ∈ frame.stack.view, ∀ origin ∈ word.producers.elements,
      evaluation.Knows handlers origin := by
  induction h with
  | entry _ =>
    intro word hw
    rw [hempty, Stack.view_empty] at hw
    cases hw
  | @step offset successor frame instruction step _ hi he _ _ ih =>
    intro word hw origin ho
    have htraces := Context.traces_execute _ _ (hread.wellFormed _ _ hi) he
    rcases htraces word hw with hpushed | ⟨word', hw', hsame⟩
    · rw [hpushed] at ho
      obtain rfl := List.mem_singleton.mp ho
      have hlt : offset < evaluation.size := hread.lt_size offset (Option.isSome_of_eq_some hi)
      exact Nat.lt_of_le_of_lt (Nat.mod_le _ _) hlt
    · exact ih word' hw' origin (hsame ▸ ho)
  | @handler offset frame handler _ hm _ _ _ =>
    intro word hw origin ho
    obtain ⟨position, hposition⟩ := Stack.exists_get?_of_mem_view hw
    rw [(get?_handlerFrame hposition).1] at ho
    obtain rfl := List.mem_singleton.mp ho
    exact ⟨handler, hm, rfl⟩
  | join _ _ hj _ iha ihb =>
    obtain ⟨-, rfl⟩ := Frame.joinAt_eq_ok_iff.mp hj
    intro word hw origin ho
    obtain ⟨position, hposition⟩ := Stack.exists_get?_of_mem_view hw
    obtain ⟨x, y, hx, hy, -, hproducers⟩ := getElem?_zipWith_join hposition
    rcases hproducers origin ho with hold | hnew
    · exact iha x (Stack.mem_view_of_get? hx) origin hold
    · exact ihb y (Stack.mem_view_of_get? hy) origin hnew

end Evaluation

namespace Subject

/-! ## All marks of a body -/

/-- All origins that belong to a body. -/
def allOrigins (subject : Subject) : List Origin :=
  .entry :: (subject.code.handlers.map fun handler => .handler handler.target) ++
    (List.range subject.evaluation.size).map .instruction

/-- All stack words of a body. -/
def allWords (subject : Subject) : List StackWord :=
  subject.allOrigins.flatMap fun origin =>
    (List.range (subject.highestStack + 1)).map fun position => ⟨origin, position⟩

/-- All marks of a body. -/
def allMarks (subject : Subject) : List Mark :=
  (List.range subject.evaluation.size).map .necessary ++ subject.allWords.map .needed ++
    subject.allWords.map .present

theorem length_allMarks (subject : Subject) : subject.allMarks.length = subject.markBound := by
  have hwords : subject.allWords.length =
      (subject.evaluation.size + subject.code.handlers.length + 1) * (subject.highestStack + 1) := by
    simp only [allWords, List.length_flatMap, List.length_map, List.length_range, List.map_const',
      List.sum_replicate_nat, allOrigins, List.length_cons, List.length_append]
    congr 1
    omega
  simp only [allMarks, List.length_append, List.length_map, List.length_range, hwords, markBound]
  rw [Nat.mul_assoc]
  omega

variable {subject : Subject} {offset : Nat}

theorem mem_allOrigins {origin : Origin} :
    origin ∈ subject.allOrigins ↔ subject.evaluation.Knows subject.code.handlers origin := by
  cases origin <;> simp [allOrigins, Evaluation.Knows]

theorem mem_allWords {word : StackWord} :
    word ∈ subject.allWords ↔ subject.evaluation.Knows subject.code.handlers word.origin ∧
      word.position ≤ subject.highestStack := by
  obtain ⟨origin, position⟩ := word
  rw [← Nat.lt_succ_iff]
  simp [allWords, mem_allOrigins]

theorem necessary_mem_allMarks : .necessary offset ∈ subject.allMarks ↔
    offset < subject.evaluation.size := by
  simp [allMarks]

theorem needed_mem_allMarks {word : StackWord} : .needed word ∈ subject.allMarks ↔
    word ∈ subject.allWords := by
  simp [allMarks]

theorem present_mem_allMarks {word : StackWord} : .present word ∈ subject.allMarks ↔
    word ∈ subject.allWords := by
  simp [allMarks]

theorem le_foldl_max {α : Type} (f : α → Nat) (list : List α) (start : Nat) :
    start ≤ list.foldl (fun highest a => max highest (f a)) start ∧
      ∀ a ∈ list, f a ≤ list.foldl (fun highest a => max highest (f a)) start := by
  induction list generalizing start with
  | nil => exact ⟨Nat.le_refl _, fun _ ha => absurd ha List.not_mem_nil⟩
  | cons head tail ih =>
    obtain ⟨hstart, htail⟩ := ih (max start (f head))
    refine ⟨by rw [List.foldl_cons]; omega, fun a ha => ?_⟩
    rw [List.foldl_cons]
    rcases List.mem_cons.mp ha with rfl | ha
    · omega
    · exact htail a ha

/-- No recorded stack is higher than the highest one. -/
theorem height_le_highestStack {stack : Stack}
    (h : subject.evaluation.stackBefore? offset = some stack ∨
      subject.evaluation.stackAfter? offset = some stack) :
    stack.height ≤ subject.highestStack := by
  have hsite : ∃ site ∈ subject.evaluation.sites,
      (site.before.map (·.stack)) = some stack ∨ (site.after.map (·.stack)) = some stack := by
    unfold Evaluation.stackBefore? Evaluation.stackAfter? Evaluation.before? Evaluation.after? at h
    cases hs : subject.evaluation.sites[offset]? with
    | none => simp [hs] at h
    | some site => exact ⟨site, Array.mem_of_getElem? hs, by simpa [hs] using h⟩
  obtain ⟨site, hmem, hstack⟩ := hsite
  have hle := (le_foldl_max (fun site : Site =>
    max ((site.before.map (·.stack.height)).getD 0) ((site.after.map (·.stack.height)).getD 0))
      subject.evaluation.sites.toList 0).2 site (Array.mem_toList_iff.mpr hmem)
  rw [highestStack, ← Array.foldl_toList]
  refine Nat.le_trans ?_ hle
  rcases hstack with hbefore | hafter
  · obtain ⟨frame, hframe, rfl⟩ := Option.map_eq_some_iff.mp hbefore
    simp [hframe]
  · obtain ⟨frame, hframe, rfl⟩ := Option.map_eq_some_iff.mp hafter
    simp [hframe]

/-- A body of which everything is recorded inside its bounds. -/
structure Bounded (subject : Subject) : Prop where
  sized : subject.evaluation.Sized
  known : ∀ offset stack, subject.evaluation.stackBefore? offset = some stack →
    ∀ word ∈ stack.view, ∀ origin ∈ word.producers.elements,
      subject.evaluation.Knows subject.code.handlers origin

theorem Bounded.mem_allWords {stack : Stack} {position : Nat} {word : Slot} {origin : Origin}
    (h : subject.Bounded) (hs : subject.evaluation.stackBefore? offset = some stack)
    (hw : stack.get? position = some word) (ho : origin ∈ word.producers.elements) :
    ⟨origin, position⟩ ∈ subject.allWords := by
  refine Subject.mem_allWords.mpr ⟨?_, ?_⟩
  · exact h.known offset stack hs word (Stack.mem_view_of_get? hw) origin ho
  · have hlt := Stack.lt_height_of_get? hw
    have hle := height_le_highestStack (.inl hs)
    simp only
    omega

/-- An evaluation keeps to the bounds of its body. -/
theorem bounded_of_evaluate {options : EvaluationOptions}
    (h : evaluate options subject.pool subject.owner subject.method subject.code =
      .ok subject.evaluation) : subject.Bounded := by
  obtain ⟨-, hlisting, -⟩ := closed_of_evaluate h
  obtain ⟨entry, hhistory⟩ := history_of_evaluate h
  refine ⟨(yields_evaluate _ _ _ _ _).2 _ h, fun offset stack hstack => ?_⟩
  obtain ⟨frame, hframe, rfl⟩ := Option.map_eq_some_iff.mp hstack
  exact (hhistory.frames offset frame hframe).knows (Listing.read_of_ofCode hlisting) hhistory.stack

/-- **What follows from a mark of a body is a mark of the body.** -/
theorem Bounded.mem_of_follows {reductions : Reductions} {reachable : IndexSet} {a b : Mark}
    (h : subject.Bounded) (hreachable : reachable.capacity = subject.evaluation.size)
    (ha : a ∈ subject.allMarks) (hf : subject.Follows reductions reachable a b) :
    b ∈ subject.allMarks := by
  have hlt {o : Nat} (ho : reachable.contains o = true) : o < subject.evaluation.size :=
    hreachable ▸ IndexSet.lt_capacity_of_contains ho
  cases hf with
  | operand _ hs _ _ hw ho => exact needed_mem_allMarks.mpr (h.mem_allWords hs hw ho)
  | «variable» _ _ _ _ hreach => exact necessary_mem_allMarks.mpr (hlt hreach)
  | initializer _ _ _ hreach => exact necessary_mem_allMarks.mpr (hlt hreach)
  | present word => exact present_mem_allMarks.mpr (needed_mem_allMarks.mp ha)
  | source _ _ hs hw ho => exact needed_mem_allMarks.mpr (h.mem_allWords hs hw ho)
  | producer hreach _ => exact necessary_mem_allMarks.mpr (hlt hreach)
  | copied _ _ hs hw ho => exact present_mem_allMarks.mpr (h.mem_allWords hs hw ho)
  | partner hreach hs hp =>
    refine present_mem_allMarks.mpr (Subject.mem_allWords.mpr ⟨hlt hreach, ?_⟩)
    have hlower := Stack.lt_height_of_partner? hp
    have hle := height_le_highestStack (.inr hs)
    simp only
    omega
  | occurrence _ hs _ _ _ hw' ho' => exact present_mem_allMarks.mpr (h.mem_allWords hs hw' ho')

end Subject

/-! ## Single steps -/

theorem Reductions.faultless_at {reductions : Reductions} {offset : Nat}
    (h : offset < reductions.size) : Faultless (reductions.at offset) :=
  .orFail_of_isSome (by simpa using h)

theorem Evaluation.Sized.faultless_targets {evaluation : Evaluation} (h : evaluation.Sized)
    {offset : Nat} (hlt : offset < evaluation.size) : Faultless (evaluation.targets offset) :=
  .orFail_of_isSome (by simpa [h.sites] using hlt)

theorem Locals.faultless_load (locals : Locals) (index : UInt16) : Faultless (locals.load index) :=
  .orDefect _ _

namespace Marks

/-- Whether the sets of some marks have room for every offset of a body of some size. -/
structure Fits (size : Nat) (marks : Marks) : Prop where
  reachable : marks.reachable.capacity = size
  necessary : marks.necessary.capacity = size

/-- What setting marks keeps. -/
structure Extends (old new : Marks) : Prop where
  reachable : new.reachable = old.reachable
  liveHandlers : new.liveHandlers = old.liveHandlers
  capacity : new.necessary.capacity = old.necessary.capacity
  has : ∀ m, old.has m = true → new.has m = true

variable {marks : Marks} {size : Nat}

theorem Extends.refl (marks : Marks) : marks.Extends marks := ⟨rfl, rfl, rfl, fun _ => id⟩

theorem Extends.trans {a b c : Marks} (hab : a.Extends b) (hbc : b.Extends c) : a.Extends c where
  reachable := hbc.reachable.trans hab.reachable
  liveHandlers := hbc.liveHandlers.trans hab.liveHandlers
  capacity := hbc.capacity.trans hab.capacity
  has m hm := hbc.has m (hab.has m hm)

theorem Extends.fits {old new : Marks} (h : old.Extends new) (hfits : old.Fits size) :
    new.Fits size :=
  ⟨h.reachable ▸ hfits.reachable, h.capacity.trans hfits.necessary⟩

theorem Fits.lt_of_reachable (h : marks.Fits size) {offset : Nat}
    (ho : offset ∈ marks.reachable.toList) : offset < size :=
  h.reachable ▸ IndexSet.lt_capacity_of_contains (IndexSet.mem_toList.mp ho)

theorem Fits.lt_of_necessary (h : marks.Fits size) {offset : Nat}
    (ho : offset ∈ marks.necessary.toList) : offset < size :=
  h.necessary ▸ IndexSet.lt_capacity_of_contains (IndexSet.mem_toList.mp ho)

theorem faultless_shuffleWords (marks : Marks) (offset : Nat) (instruction : Instruction)
    (before : Stack) : Faultless (marks.shuffleWords offset instruction before) := by
  exact (Faultless.orDefect _ _).bind fun move _ => .check (.ok _)

end Marks

namespace Subject

variable {subject : Subject} {reductions : Reductions} {marks : Marks} {offset : Nat}

theorem yields_set (hfits : marks.Fits subject.evaluation.size) {mark : Mark}
    (hmark : mark ∈ subject.allMarks) :
    Yields (marks.set mark) fun marks' => marks.Extends marks' ∧ marks'.has mark = true := by
  refine Faultless.yields ?_ fun marks' hset => ?_
  · cases mark with
    | necessary offset =>
      have hlt := necessary_mem_allMarks.mp hmark
      exact (IndexSet.yields_add (hfits.necessary ▸ hlt)).1.bind fun _ _ => .ok _
    | needed word => exact .ok _
    | present word => exact .ok _
  · obtain ⟨hreachable, hlive, hhas⟩ := Marks.set_eq_ok hset
    refine ⟨⟨hreachable, hlive, ?_, fun m hm => (hhas m).mpr (.inr hm)⟩, (hhas mark).mpr (.inl rfl)⟩
    cases mark with
    | necessary offset =>
      obtain ⟨necessary, hadd, hmarks'⟩ := Except.bind_eq_ok.mp hset
      cases hmarks'
      exact (IndexSet.add_eq_ok hadd).2.1
    | needed word =>
      cases hset
      rfl
    | present word =>
      cases hset
      rfl

theorem faultless_instruction : Faultless (subject.instruction offset) := .orDefect _ _

theorem faultless_stackBefore : Faultless (subject.stackBefore offset) := .orDefect _ _

theorem faultless_gotoTarget? (instruction : Instruction) :
    Faultless (gotoTarget? offset instruction) :=
  .ite (fun _ => (instruction.ordinary_branchTargets offset).faultless.bind fun _ _ => .ok _)
    fun _ => .ok _

theorem faultless_sourcePosition (position : Nat) :
    Faultless (subject.sourcePosition offset position) := by
  refine faultless_instruction.bind fun instruction _ => ?_
  split
  · exact .ok _
  · refine .ite (fun _ => .ok _) fun _ => faultless_stackBefore.bind fun before _ => ?_
    have hposition (p : Prop) [Decidable p] (missing : Defect) (base : Nat) (found : Option Nat) :
        Faultless (do
          if p then defect missing
          return some (base + (← orDefect missing found))) := by
      exact .check ((Faultless.orDefect _ _).bind fun _ _ => .ok _)
    exact .check (hposition _ _ _ _)

theorem faultless_variableProducers (evaluation : Evaluation) (slot : UInt16) :
    Faultless (variableProducers marks evaluation offset slot) := by
  unfold variableProducers
  split
  · exact .ok _
  · exact (Locals.faultless_load _ slot).bind fun _ _ => .ok _

theorem faultless_visitUnreduced (instruction : Instruction) :
    Faultless (subject.visitUnreduced marks offset instruction) := by
  refine faultless_stackBefore.bind fun stack _ =>
    (instruction.ordinary_stackEffect _).faultless.bind fun effect _ => ?_
  refine .check ?_
  cases instruction.readSlot? with
  | none => exact (Faultless.pure _).bind fun _ _ => .pure _
  | some slot => exact (faultless_variableProducers _ slot).bind fun _ _ => .pure _

theorem faultless_visitNecessary (h : offset < reductions.size) :
    Faultless (subject.visitNecessary reductions marks offset) := by
  refine faultless_instruction.bind fun instruction _ =>
    (Reductions.faultless_at h).bind fun reduction _ => ?_
  split
  · exact faultless_variableProducers _ _
  · exact .ok _
  · split
    · exact .ok _
    · exact faultless_visitUnreduced _

theorem faultless_visitNeeded (word : StackWord) : Faultless (subject.visitNeeded marks word) := by
  unfold visitNeeded
  split
  · exact .ok _
  · refine .ite (fun _ => .ok _) fun _ => (faultless_sourcePosition _).bind fun source _ => ?_
    split
    · exact faultless_stackBefore.bind fun _ _ => .ok _
    · exact .ok _

theorem faultless_visitPresent (word : StackWord) :
    Faultless (subject.visitPresent marks word) := by
  refine Faultless.bind ?_ fun producer _ =>
    (Faultless.mapM fun _ _ => faultless_stackBefore.bind fun _ _ => .ok _).bind fun _ _ => .ok _
  unfold visitProducer
  split
  · exact .ok _
  · refine .ite (fun _ => .ok _) fun _ => (faultless_sourcePosition _).bind fun source _ => ?_
    split
    · exact faultless_stackBefore.bind fun _ _ => .ok _
    · exact .ok _

theorem faultless_visit {mark : Mark} (hr : reductions.size = subject.evaluation.size)
    (hmark : mark ∈ subject.allMarks) : Faultless (subject.visit reductions marks mark) := by
  cases mark with
  | necessary offset =>
    exact faultless_visitNecessary (hr ▸ necessary_mem_allMarks.mp hmark)
  | needed word => exact faultless_visitNeeded word
  | present word => exact faultless_visitPresent word

/-! ## Setting marks -/

/-- **Setting marks ends within its bound**: every step sets one more mark of the body. -/
theorem yields_propagate {bound : Nat} {pending : List Mark} (hb : subject.Bounded)
    (hr : reductions.size = subject.evaluation.size) (hfits : marks.Fits subject.evaluation.size)
    (hpending : ∀ m ∈ pending, m ∈ subject.allMarks)
    (hbound : remaining marks.has subject.allMarks ≤ bound) :
    Yields (subject.propagate reductions bound pending marks) fun final =>
      marks.Extends final ∧ ∀ m ∈ pending, final.has m = true := by
  induction bound generalizing pending marks with
  | zero =>
    have hnone := List.countP_eq_zero.mp (Nat.le_zero.mp hbound)
    have hall : ∀ m ∈ pending, marks.has m = true := fun m hm => by
      simpa using hnone m (hpending m hm)
    rw [propagate, List.dropWhile_eq_nil_iff.mpr hall]
    exact .ok ⟨.refl _, hall⟩
  | succ bound ih =>
    rw [propagate]
    split
    · rename_i hnil
      exact .ok ⟨.refl _, List.dropWhile_eq_nil_iff.mp hnil⟩
    · rename_i mark rest hsome
      have hnew : marks.has mark = false := by
        have hhead := List.head_dropWhile_not marks.has (l := pending) (by simp [hsome])
        simpa [hsome] using hhead
      have hsubset : ∀ m ∈ mark :: rest, m ∈ subject.allMarks := fun m hm =>
        hpending m (List.dropWhile_subset _ (hsome ▸ hm))
      have hmem := hsubset mark List.mem_cons_self
      refine (yields_set hfits hmem).bind fun marks' hmarks => ?_
      obtain ⟨hextends, hset⟩ := hmarks
      refine ((faultless_visit hr hmem).yields fun _ => id).bind fun following hvisit => ?_
      refine (ih (hextends.fits hfits) ?_ ?_).mono fun final hfinal =>
        ⟨hextends.trans hfinal.1, fun m hm => ?_⟩
      · intro m hm
        rcases List.mem_append.mp hm with hm | hm
        · have hfollows := (visit_spec hvisit).1 m (List.mem_reverse.mp hm)
          exact hb.mem_of_follows (hextends.fits hfits).reachable hmem hfollows
        · exact hsubset m (List.mem_cons_of_mem _ hm)
      · have hlt := remaining_lt hextends.has hmem hnew hset
        omega
      · rcases mem_or_has_of_dropWhile hsome hm with hold | hleft
        · exact hfinal.1.has m (hextends.has m hold)
        · rcases List.mem_cons.mp hleft with rfl | hrest
          · exact hfinal.1.has _ hset
          · exact hfinal.2 m (List.mem_append_right _ hrest)

/-! ## Further rules -/

theorem faultless_leavesCode : Faultless (subject.leavesCode marks offset) := by
  refine faultless_instruction.bind fun instruction _ => faultless_stackBefore.bind fun before _ => ?_
  split
  · exact (marks.faultless_shuffleWords _ _ _).bind fun _ _ => .ok _
  · exact (instruction.ordinary_stackEffect _).faultless.bind fun _ _ => .pure _

theorem yields_liveCode (hfits : marks.Fits subject.evaluation.size) :
    Yields (subject.liveCode marks) fun live => live.capacity = subject.evaluation.size := by
  refine Yields.foldlM (fun live o ho hlive => .ite (fun _ => .pure hlive) fun _ => ?_)
    hfits.necessary
  refine (faultless_leavesCode.yields fun _ _ => trivial).bind fun leaves _ =>
    .ite (fun _ => ?_) fun _ => .pure hlive
  have hlt := hfits.lt_of_reachable ho
  exact (IndexSet.yields_add (hlive ▸ hlt)).mono fun _ hadded => hadded.1.trans hlive

theorem faultless_straddlingTargets (hsized : subject.evaluation.Sized)
    (hr : reductions.size = subject.evaluation.size) (hlt : offset < subject.evaluation.size) :
    Faultless (subject.straddlingTargets reductions offset) := by
  have htargets : Faultless (do return (← subject.evaluation.targets offset).elements) :=
    (hsized.faultless_targets hlt).bind fun _ _ => .ok _
  refine (Reductions.faultless_at (hr ▸ hlt)).bind fun reduction _ => ?_
  split
  · exact .ok _
  · exact .ok _
  · refine faultless_instruction.bind fun instruction _ => ?_
    split <;> first | exact htargets | exact .ok _

/-- Whether marks are such as the further rules set: of instructions that are reachable and not
necessary yet. -/
def Requires (marks : Marks) (found : List Mark) : Prop :=
  ∀ m ∈ found, ∃ offset, m ∈ marks.require offset

theorem requires_flatten {found : List (List Mark)} (h : ∀ part ∈ found, Requires marks part) :
    Requires marks found.flatten := by
  intro m hm
  obtain ⟨part, hpart, hm⟩ := List.mem_flatten.mp hm
  exact h part hpart m hm

theorem requires_require (marks : Marks) (offset : Nat) :
    Requires marks (marks.require offset) := fun _ hm => ⟨offset, hm⟩

theorem requires_nil (marks : Marks) : Requires marks [] := fun _ hm => absurd hm List.not_mem_nil

theorem yields_straddlingBranches (hsized : subject.evaluation.Sized)
    (hr : reductions.size = subject.evaluation.size) (hfits : marks.Fits subject.evaluation.size) :
    Yields (subject.straddlingBranches reductions marks) (Requires marks) := by
  refine (yields_liveCode hfits).bind fun live _ => ?_
  refine (Yields.mapM fun o ho => ?_).bind fun found hfound => .pure (requires_flatten hfound)
  refine .ite (fun _ => .pure (requires_nil marks)) fun _ => ?_
  have htargets := faultless_straddlingTargets hsized hr (hfits.lt_of_reachable ho)
  refine (htargets.yields fun _ _ => trivial).bind fun targets _ => ?_
  exact .ite (fun _ => .pure (requires_require marks o)) fun _ => .pure (requires_nil marks)

theorem yields_variableProducers (evaluation : Evaluation) (slot : UInt16) :
    Yields (variableProducers marks evaluation offset slot) (Requires marks) := by
  refine (faultless_variableProducers evaluation slot).yields fun found hfound m hm => ?_
  obtain ⟨-, -, producer, -, -, -, hrequire⟩ := (mem_variableProducers hfound).mp hm
  exact ⟨producer, hrequire⟩

theorem yields_missingStores (simple : Evaluation)
    (hr : reductions.size = subject.evaluation.size) (hfits : marks.Fits subject.evaluation.size) :
    Yields (subject.missingStores reductions simple marks) (Requires marks) := by
  refine (Yields.mapM fun o ho => ?_).bind fun found hfound => .pure (requires_flatten hfound)
  have hslot : Faultless (subject.slotRead? reductions o) := by
    refine (Reductions.faultless_at (hr ▸ hfits.lt_of_necessary ho)).bind fun reduction _ => ?_
    split
    · exact .ok _
    · exact .ok _
    · exact faultless_instruction.bind fun _ _ => .ok _
  refine (hslot.yields fun _ _ => trivial).bind fun slot _ => ?_
  cases slot with
  | none => exact .pure (requires_nil marks)
  | some slot => exact yields_variableProducers simple slot

/-! ## Loops of which nothing is left -/

theorem faultless_backwardGoto? (reduction : Option Reduction) :
    Faultless (subject.backwardGoto? reduction offset) := by
  unfold backwardGoto?
  split
  · exact .ok _
  · exact .ok _
  · exact faultless_instruction.bind fun _ _ => (faultless_gotoTarget? _).bind fun _ _ => .ok _

theorem faultless_leavesFrom (hsized : subject.evaluation.Sized)
    (hr : reductions.size = subject.evaluation.size) {head inner : Nat}
    (hlt : inner < subject.evaluation.size) :
    Faultless (subject.leavesFrom reductions marks head offset inner) := by
  have htargets (reduction : Option Reduction) :
      Faultless (subject.reducedTargets reduction inner) := by
    unfold reducedTargets
    split
    · exact .ok _
    · exact .ok _
    · exact .ok _
    · exact (hsized.faultless_targets hlt).bind fun _ _ => .ok _
  refine faultless_instruction.bind fun instruction _ => ?_
  split
  · exact .ok _
  · exact .ok _
  · exact (Reductions.faultless_at (hr ▸ hlt)).bind fun reduction _ =>
      (htargets reduction).bind fun _ _ => .pure _

theorem faultless_anyE {α : Type} {ask : α → Except Failure Bool} {list : List α}
    (h : ∀ a ∈ list, Faultless (ask a)) : Faultless (anyE ask list) := by
  induction list with
  | nil => exact .ok _
  | cons head tail ih =>
    exact (h head List.mem_cons_self).bind fun _ _ =>
      .ite (fun _ => .ok _) fun _ => ih fun a ha => h a (List.mem_cons_of_mem _ ha)

theorem faultless_findE? {α : Type} {ask : α → Except Failure Bool} {list : List α}
    (h : ∀ a ∈ list, Faultless (ask a)) : Faultless (findE? ask list) := by
  induction list with
  | nil => exact .ok _
  | cons head tail ih =>
    exact (h head List.mem_cons_self).bind fun _ _ =>
      .ite (fun _ => .ok _) fun _ => ih fun a ha => h a (List.mem_cons_of_mem _ ha)

theorem faultless_closesEmptyLoop (hsized : subject.evaluation.Sized)
    (hr : reductions.size = subject.evaluation.size) (hfits : marks.Fits subject.evaluation.size)
    (live : IndexSet) (hlt : offset < subject.evaluation.size) :
    Faultless (subject.closesEmptyLoop reductions marks live offset) := by
  have hexits (head : Nat) : Faultless (subject.loopExits reductions marks head offset) :=
    faultless_anyE fun inner hinner =>
      faultless_leavesFrom hsized hr (hfits.lt_of_reachable (List.mem_filter.mp hinner).1)
  refine .ite (fun _ => .ok _) fun _ => (Reductions.faultless_at (hr ▸ hlt)).bind fun reduction _ =>
    (faultless_backwardGoto? reduction).bind fun head _ => ?_
  cases head with
  | none => exact .ok _
  | some head =>
    refine .ite (fun _ => .ok _) fun _ => faultless_stackBefore.bind fun before _ =>
      faultless_instruction.bind fun instruction _ =>
        (instruction.ordinary_stackEffect _).faultless.bind fun effect _ => ?_
    exact .ite (fun _ => .ok _) fun _ => (hexits head).bind fun _ _ => .ok _

theorem faultless_emptyLoop? (hsized : subject.evaluation.Sized)
    (hr : reductions.size = subject.evaluation.size) (hfits : marks.Fits subject.evaluation.size) :
    Faultless (subject.emptyLoop? reductions marks) :=
  (yields_liveCode hfits).1.bind fun live _ => faultless_findE? fun _ ho =>
    faultless_closesEmptyLoop hsized hr hfits live (hfits.lt_of_reachable ho)

theorem yields_revertLoops {earlier : Reductions} (hr : reductions.size = subject.evaluation.size)
    (he : earlier.size = subject.evaluation.size) (hfits : marks.Fits subject.evaluation.size) :
    Yields (subject.revertLoops earlier reductions marks) fun final =>
      final.size = subject.evaluation.size := by
  refine (yields_liveCode hfits).bind fun live _ => ?_
  refine Yields.foldlM (fun current o ho hcurrent => ?_) hr
  have hlt : o < subject.evaluation.size := hr ▸ List.mem_range.mp ho
  refine ((Reductions.faultless_at (hcurrent ▸ hlt)).yields fun _ _ => trivial).bind fun now _ => ?_
  refine .ite (fun _ => ?_) fun _ => .pure hcurrent
  refine ((Reductions.faultless_at (he ▸ hlt)).yields fun _ _ => trivial).bind fun reduction _ => ?_
  refine ((faultless_backwardGoto? reduction).yields fun _ _ => trivial).bind fun head _ => ?_
  refine .ite (fun _ => .pure ?_) fun _ => .pure hcurrent
  simpa using hcurrent

/-! ## Marking a body -/

/-- **Finding what is reachable ends within its bound**: every step adds an offset. -/
theorem yields_reach (hsized : subject.evaluation.Sized) {bound : Nat} {pending : List Nat}
    {reached : IndexSet} (hreached : reached.capacity = subject.evaluation.size)
    (hbound : remaining reached.contains (List.range subject.evaluation.size) ≤ bound) :
    Yields (subject.reach bound pending reached) fun final =>
      final.capacity = subject.evaluation.size := by
  have hlt {o : Nat} (ho : subject.evaluation.isTraced o = true) : o < subject.evaluation.size :=
    hsized.traced ▸ IndexSet.lt_capacity_of_contains ho
  induction bound generalizing pending reached with
  | zero =>
    have hnone := List.countP_eq_zero.mp (Nat.le_zero.mp hbound)
    have hall : ∀ o ∈ pending, (!subject.evaluation.isTraced o || reached.contains o) = true := by
      intro o _
      cases htraced : subject.evaluation.isTraced o with
      | false => rfl
      | true => simpa using hnone o (List.mem_range.mpr (hlt htraced))
    rw [reach, List.dropWhile_eq_nil_iff.mpr hall]
    exact .ok hreached
  | succ bound ih =>
    rw [reach]
    split
    · exact .ok hreached
    · rename_i offset rest hsome
      have hhead := List.head_dropWhile_not
        (fun o => !subject.evaluation.isTraced o || reached.contains o) (l := pending)
        (by simp [hsome])
      simp only [hsome, List.head_cons, Bool.or_eq_false_iff, Bool.not_eq_false'] at hhead
      obtain ⟨htraced, hnew⟩ := hhead
      have ho := hlt htraced
      refine ((hsized.faultless_targets ho).yields fun _ _ => trivial).bind fun targets _ => ?_
      refine (IndexSet.yields_add (hreached ▸ ho)).bind fun added hadds => ?_
      obtain ⟨hcapacity, hadded⟩ := hadds
      refine ih (hcapacity.trans hreached) ?_
      have hgrows : ∀ o, reached.contains o = true → added.contains o = true := fun o h => by
        simp [hadded, h]
      have hless := remaining_lt hgrows (List.mem_range.mpr ho) hnew (by simp [hadded])
      omega

theorem yields_unmarked (hsized : subject.evaluation.Sized) (live : List Bool) :
    Yields (subject.unmarked live) fun marks =>
      marks.Fits subject.evaluation.size ∧ marks.liveHandlers = live := by
  refine (yields_reach hsized (IndexSet.capacity_ofCapacity _) ?_).bind fun reachable hcapacity =>
    .pure ⟨⟨hcapacity, IndexSet.capacity_ofCapacity _⟩, rfl⟩
  refine Nat.le_trans remaining_le_length ?_
  simp

theorem mem_allMarks_of_requires {found : List Mark}
    (hfits : marks.Fits subject.evaluation.size) (h : Requires marks found) :
    ∀ m ∈ found, m ∈ subject.allMarks := by
  intro m hm
  obtain ⟨o, hrequire⟩ := h m hm
  obtain ⟨rfl, hreach, -⟩ := Marks.mem_require.mp hrequire
  exact necessary_mem_allMarks.mpr (hfits.lt_of_reachable (IndexSet.mem_toList.mpr hreach))

theorem faultless_isRoot (hlt : offset < reductions.size) :
    Faultless (subject.isRoot reductions offset) := by
  refine faultless_instruction.bind fun instruction _ =>
    (faultless_gotoTarget? instruction).bind fun target _ => .ite (fun _ => .ok _) fun _ => ?_
  refine .ite (fun _ => ?_) fun _ => .ok _
  exact (Reductions.faultless_at hlt).bind fun _ _ => .ok _

theorem yields_roots (hr : reductions.size = subject.evaluation.size)
    (hfits : marks.Fits subject.evaluation.size) :
    Yields (subject.roots reductions marks) fun found => ∀ m ∈ found, m ∈ subject.allMarks := by
  have hoffsets : Faultless (marks.reachable.toList.filterM (subject.isRoot reductions)) :=
    .filterM fun o ho => faultless_isRoot (hr ▸ hfits.lt_of_reachable ho)
  refine (hoffsets.yields fun _ _ => trivial).bind fun offsets _ => .pure fun m hm => ?_
  simp only [List.mem_append] at hm
  rcases hm with (hexception | hinitialization) | hroot
  · obtain ⟨target, htarget, rfl⟩ := List.mem_map.mp hexception
    refine present_mem_allMarks.mpr (Subject.mem_allWords.mpr ⟨?_, Nat.zero_le _⟩)
    obtain ⟨⟨handler, live⟩, hlive, rfl⟩ := List.mem_map.mp htarget
    exact ⟨handler, (List.of_mem_zip (List.mem_filter.mp hlive).1).1, rfl⟩
  · cases hsuper : subject.evaluation.superInitialization with
    | none => simp [hsuper] at hinitialization
    | some offset =>
      simp only [hsuper, Option.map_some, Option.getD_some] at hinitialization
      exact mem_allMarks_of_requires hfits (requires_require marks offset) m hinitialization
  · obtain ⟨offset, -, hm⟩ := List.mem_flatMap.mp hroot
    exact mem_allMarks_of_requires hfits (requires_require marks offset) m hm

/-- How many offsets of a body of some size are not necessary. -/
def unnecessary (size : Nat) (marks : Marks) : Nat :=
  remaining marks.necessary.contains (List.range size)

theorem Requires.exists_unnecessary {size : Nat} {pending : List Mark}
    (h : Requires marks pending) (hfits : marks.Fits size) (hne : pending ≠ []) :
    ∃ o ∈ List.range size, marks.necessary.contains o = false ∧ .necessary o ∈ pending := by
  obtain ⟨m, hm⟩ := List.exists_mem_of_ne_nil pending hne
  obtain ⟨o, hrequire⟩ := h m hm
  obtain ⟨rfl, hreach, hunnecessary⟩ := Marks.mem_require.mp hrequire
  have hlt := hfits.lt_of_reachable (IndexSet.mem_toList.mpr hreach)
  exact ⟨o, List.mem_range.mpr hlt, hunnecessary, hm⟩

/-- **Applying all rules ends within its bound**: every step but the last makes an instruction
necessary. -/
theorem yields_saturate (hb : subject.Bounded) (simple : Evaluation) {bound : Nat}
    {pending : List Mark} (hr : reductions.size = subject.evaluation.size)
    (hfits : marks.Fits subject.evaluation.size) (hpending : ∀ m ∈ pending, m ∈ subject.allMarks)
    (hbound : ∀ new, marks.Extends new → (∀ m ∈ pending, new.has m = true) →
      unnecessary subject.evaluation.size new ≤ bound) :
    Yields (subject.saturate simple bound pending reductions marks) fun (final, reduced) =>
      marks.Extends final ∧ reduced.size = subject.evaluation.size := by
  induction bound using Nat.strongRecOn generalizing pending reductions marks with
  | ind bound ih =>
  have hroom : remaining marks.has subject.allMarks ≤ subject.markBound := by
    rw [← length_allMarks]
    exact remaining_le_length
  have hpropagate :=
    yields_propagate hb hr hfits (fun m hm => hpending m (List.mem_reverse.mp hm)) hroom
  unfold saturate
  refine hpropagate.bind fun propagated hpropagated => ?_
  obtain ⟨hextends, hall⟩ := hpropagated
  have hfits' := hextends.fits hfits
  have hleft := hbound propagated hextends fun m hm => hall m (List.mem_reverse.mpr hm)
  refine (yields_straddlingBranches hb.sized hr hfits').bind fun branches hbranches =>
    (yields_missingStores simple hr hfits').bind fun stores hstores => ?_
  have hcontinue {following : List Mark} {changed : Reductions}
      {next : Except Failure (Marks × Reductions)}
      (hsize : changed.size = subject.evaluation.size) (hrequires : Requires propagated following)
      (hnext : ∀ rest, bound = rest + 1 →
        next = subject.saturate simple rest following changed propagated) :
      Yields (if following.isEmpty then return (propagated, changed) else next)
        fun (final, reduced) =>
          marks.Extends final ∧ reduced.size = subject.evaluation.size := by
    refine .ite (fun _ => .pure ⟨hextends, hsize⟩) fun hsome => ?_
    have hne : following ≠ [] := fun hnil => hsome (by simp [hnil])
    obtain ⟨o, ho, hunnecessary, hmem⟩ := hrequires.exists_unnecessary hfits' hne
    cases bound with
    | zero =>
      have hnone := List.countP_eq_zero.mp (Nat.le_zero.mp hleft) o ho
      simp [hunnecessary] at hnone
    | succ bound =>
      rw [hnext bound rfl]
      refine (ih bound (Nat.lt_succ_self _) hsize hfits'
        (mem_allMarks_of_requires hfits' hrequires) fun new h hset => ?_).mono
        fun result h => ⟨hextends.trans h.1, h.2⟩
      have hlt : unnecessary subject.evaluation.size new <
          unnecessary subject.evaluation.size propagated :=
        remaining_lt (fun o ho => h.has (.necessary o) ho) ho hunnecessary (hset _ hmem)
      omega
  have hrequires : Requires propagated (branches ++ stores) := fun m hm =>
    (List.mem_append.mp hm).elim (hbranches m) (hstores m)
  have hloop := faultless_emptyLoop? hb.sized hr hfits'
  refine .ite (fun _ => (hloop.yields fun _ _ => trivial).bind fun loop _ => ?_) fun _ => ?_
  · cases loop with
    | none => exact hcontinue hr hrequires fun rest hrest => by rw [hrest]
    | some offset =>
      exact hcontinue (by simpa using hr) (requires_require propagated offset)
        fun rest hrest => by rw [hrest]
  · exact hcontinue hr hrequires fun rest hrest => by rw [hrest]

/-- **Marking with given live handlers does not fault.** -/
theorem yields_markWith (hb : subject.Bounded) (hr : reductions.size = subject.evaluation.size)
    (live : List Bool) :
    Yields (subject.markWith reductions live) fun (marks, reduced) =>
      marks.Fits subject.evaluation.size ∧ marks.liveHandlers = live ∧
        reduced.size = subject.evaluation.size := by
  refine (yields_unmarked hb.sized live).bind fun marks ⟨hfits, hlive⟩ => ?_
  refine (yields_evaluate _ _ _ _ _).bind fun simple _ => ?_
  refine (yields_roots hr hfits).bind fun roots hroots => ?_
  refine (yields_saturate hb simple hr hfits hroots fun new _ _ => ?_).mono
    fun (final, reduced) ⟨hextends, hreduced⟩ =>
      ⟨hextends.fits hfits, hextends.liveHandlers.trans hlive, hreduced⟩
  refine Nat.le_trans remaining_le_length ?_
  simp

/-- A handler that is still live was live. -/
theorem stillLive_spec (subject : Subject)
    (hlength : marks.liveHandlers.length = subject.code.handlers.length) :
    (subject.stillLive marks).length = subject.code.handlers.length ∧
      List.Forall₂ (fun live left => left = true → live = true) marks.liveHandlers
        (subject.stillLive marks) := by
  refine ⟨by simp [stillLive, hlength], ?_⟩
  refine List.forall₂_iff_get.mpr ⟨by simp [stillLive, hlength], fun i h h' hleft => ?_⟩
  simp only [stillLive, List.get_eq_getElem, List.getElem_map, List.getElem_zip,
    Bool.and_eq_true] at hleft
  exact hleft.1

theorem count_lt_of_forall₂ {before after : List Bool}
    (h : List.Forall₂ (fun old new => new = true → old = true) before after)
    (hne : after ≠ before) : after.count true < before.count true := by
  induction h with
  | nil => exact absurd rfl hne
  | @cons old new before after hhead htail ih =>
    have hle : after.count true ≤ before.count true := by
      by_cases heq : after = before
      · exact Nat.le_of_eq (congrArg (List.count true) heq)
      · exact Nat.le_of_lt (ih heq)
    cases old <;> cases new
    · exact ih fun heq => hne (heq ▸ rfl)
    · exact absurd (hhead rfl) Bool.false_ne_true
    · simp only [List.count_cons_self, List.count_cons_of_ne Bool.false_ne_true]
      omega
    · have hlt := ih fun heq => hne (heq ▸ rfl)
      simp only [List.count_cons_self]
      omega

/-- **Marking a body does not fault**: whenever it starts again, a handler has turned out dead. -/
theorem yields_markFrom (hb : subject.Bounded) (hr : reductions.size = subject.evaluation.size)
    {bound : Nat} {live : List Bool} (hlength : live.length = subject.code.handlers.length)
    (hbound : live.count true ≤ bound) :
    Yields (subject.markFrom reductions bound live) fun (_, final) =>
      final.size = subject.evaluation.size := by
  induction bound using Nat.strongRecOn generalizing live with
  | ind bound ih =>
  unfold markFrom
  refine (yields_markWith hb hr live).bind fun result hresult => ?_
  obtain ⟨marks, reduced⟩ := result
  obtain ⟨hfits, hlive, hreduced⟩ := hresult
  refine .ite (fun _ => ?_) fun hne => ?_
  · exact (yields_revertLoops hreduced hr hfits).bind fun final hfinal => .pure hfinal
  · obtain ⟨hlength', hleft⟩ := subject.stillLive_spec (hlive ▸ hlength)
    rw [hlive] at hleft
    have hless := count_lt_of_forall₂ hleft hne
    cases bound with
    | zero => omega
    | succ bound => exact ih bound (Nat.lt_succ_self _) hlength' (by omega)

theorem yields_mark (hb : subject.Bounded) (hr : reductions.size = subject.evaluation.size) :
    Yields (subject.mark reductions) fun (_, final) => final.size = subject.evaluation.size := by
  refine yields_markFrom hb hr (List.length_map _) ?_
  exact Nat.le_trans List.count_le_length (Nat.le_of_eq (List.length_map _))

end Subject

end JvmTrim
