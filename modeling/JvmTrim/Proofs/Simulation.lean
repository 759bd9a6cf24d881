import JvmTrim.Proofs.Divergence

/-!
# The new code follows the body

A store of the new code matches a state of the body if the two agree on all that the rest of the run
depends on: the present words, the needed ones among them with the same numbers, and the variables
whose stores are all kept. Before a pop that is kept, the words that it is kept for come on top.

Every step of the body is a run of the new code between the positions that its two offsets move to;
that run may be empty. There are two exceptions, and then the run of the body does not end. Since an
instruction that ends a run stays as it is, the new code ends in the same way.

## Main definitions

* `Decision.Matches`: a store of the new code that matches a state of the body

## Main results

* `MethodContext.Repairs.moved_of_unnecessary`: where the new code continues behind what is left of an
  instruction that is not necessary
* `MethodContext.Repairs.finishes_of_step`, `MethodContext.Repairs.finishes_of_end`
* `MethodContext.Repairs.finishes_of_run`: the new code ends as the body does
-/

namespace JvmTrim

open Edit (moved)

namespace Decision

variable (decision : Decision) (repair : RepairState)

/-- The words on top of the stack that a pop at `offset` is kept for. -/
def unusedWords (offset : Nat) : Nat :=
  if repair.keptPops.contains offset then
    ((decision.evaluation.instruction? offset).bind Instruction.shuffle?).elim 0 Shuffle.pops
  else 0

/-- Whether a store of the new code matches a state of the body: but for the words that a pop is kept
for, the two agree on all that the rest of the run depends on. -/
structure Matches (state : Machine.State) (store' : Store) : Prop where
  reached : decision.Reached state
  agree : ∃ before unused rest, decision.evaluation.before? state.offset = some before ∧
    store'.stack = unused ++ rest ∧ unused.length = decision.unusedWords repair state.offset ∧
    decision.marks.Agree before state.toStore ⟨rest, store'.locals⟩

variable {decision repair} {offset : Nat} {instruction : Instruction}

theorem unusedWords_of_not_shuffle
    (hi : decision.evaluation.instruction? offset = some instruction)
    (hnot : instruction.isShuffle = false) : decision.unusedWords repair offset = 0 := by
  have hnone : instruction.shuffle? = none := Option.isNone_iff_eq_none.mp (by
    rwa [← Option.not_isSome, Bool.not_eq_true'])
  simp only [unusedWords, hi, Option.bind_some, hnone, Option.elim_none, ite_self]

theorem unusedWords_of_pop {pool : ConstantPool} {effect : StackEffect}
    (hkept : repair.keptPops.contains offset = true)
    (hi : decision.evaluation.instruction? offset = some instruction)
    (hshuffle : instruction.isShuffle = true) (he : instruction.stackEffect pool = .ok effect) :
    decision.unusedWords repair offset = effect.pops := by
  obtain ⟨move, hmove⟩ := Option.isSome_iff_exists.mp hshuffle
  have hop := Instruction.shuffle?_eq_some_iff.mp hmove
  cases he.symm.trans (stackEffect_of_shuffle hop pool)
  simp only [unusedWords, hkept, if_true, hi, Option.bind_some, hmove, Option.elim_some]

end Decision

/-! ## Jumps and pops -/

theorem toInt_of_displacementTo {offset target : Nat} {displacement : Int32}
    (h : displacementTo offset target = .ok displacement) :
    (offset : Int) + displacement.toInt = target := by
  unfold displacementTo at h
  dsimp only at h
  split at h
  · cases h
    rw [Int32.toInt_ofInt_of_le (by omega) (by omega)]
    omega
  · cases h

theorem Decision.Handles.of_effect {decision : Decision} {old pool : ConstantPool} {offset : Nat}
    {instruction : Instruction} {reduction : Option Reduction} {effect : StackEffect}
    (h : decision.Handles old offset instruction reduction effect)
    (he : instruction.stackEffect pool = .ok effect) :
    decision.Handles pool offset instruction reduction effect :=
  ⟨h.reachable, h.not_shuffle, h.reduction, he⟩

theorem Machine.displacement_of_resolve {instruction : Instruction} {offset place target : Nat}
    (h : resolve instruction offset (some place) = .ok target) :
    ∃ displacement, instruction.displacements[place]? = some displacement ∧
      (offset : Int) + displacement.toInt = target := by
  unfold resolve at h
  simp only at h
  split at h
  · rename_i displacement hd
    split at h
    · cases h
    · cases h
      exact ⟨displacement, hd, by omega⟩
  · cases h

theorem Machine.execute_goto (pool : ConstantPool) (displacement : Int32) (store : Store) :
    execute pool (.branch Opcode.goto displacement) store = .ok (some 0, store) := by
  have hop : (Instruction.branch Opcode.goto displacement).operation = .jump := operation_goto
  unfold execute
  simp only [hop]
  rfl

theorem Marks.presentBelow_lt (marks : Marks) {stack : Stack} {bottom position height : Nat}
    (hge : bottom ≤ position) (hlt : position < height)
    (h : marks.wordPresent stack position = true) :
    marks.presentBelow stack bottom < marks.presentBelow stack height := by
  obtain ⟨count, rfl⟩ := Nat.exists_eq_add_of_le (Nat.le_of_lt (Nat.lt_of_le_of_lt hge hlt))
  rw [marks.countP_range_add]
  refine Nat.lt_add_of_pos_right (List.countP_pos_iff.mpr ⟨position - bottom, ?_, ?_⟩)
  · exact List.mem_range.mpr (by omega)
  · rwa [Nat.add_sub_cancel' hge]

/-- An instruction that gives nothing leaves code only if something that it takes is present. -/
theorem Subject.exists_present_of_leavesCode {subject : Subject} {marks : Marks} {offset : Nat}
    {before : Frame} {instruction : Instruction} {effect : StackEffect}
    (h : subject.leavesCode marks offset = .ok true)
    (hb : subject.evaluation.before? offset = some before)
    (hi : subject.evaluation.instruction? offset = some instruction)
    (hnot : instruction.isShuffle = false)
    (he : instruction.stackEffect subject.pool = .ok effect) (hpushes : effect.pushes = 0) :
    ∃ position, before.stack.height - effect.pops ≤ position ∧ position < before.stack.height ∧
      marks.wordPresent before.stack position = true := by
  have hinstruction : subject.instruction offset = .ok instruction := (orDefect_eq_ok ..).mpr hi
  have hstack : subject.stackBefore offset = .ok before.stack :=
    (orDefect_eq_ok ..).mpr (congrArg (Option.map Frame.stack) hb)
  unfold Subject.leavesCode at h
  simp only [hinstruction, hstack, he, hnot, hpushes, bind, Except.bind, pure, Except.pure,
    Bool.false_eq_true, if_false, Except.ok.injEq, Bool.or_eq_true, List.any_eq_true,
    List.mem_range'_1] at h
  rcases h with ⟨position, ⟨hge, hlt⟩, hpresent⟩ | ⟨position, hmem, -⟩
  · exact ⟨position, hge, by omega, hpresent⟩
  · split at hmem
    · rw [List.mem_range'_1] at hmem
      omega
    · cases hmem

/-! ## Steps -/

namespace MethodContext.Repairs

variable {context : MethodContext} {pool pool' old new : ConstantPool} {decision : Decision}
  {sideEffects : IndexSet} {entry before : Frame} {original : Reductions} {simple : Evaluation}
  {repair : RepairState} {live : IndexSet} {instruction : Instruction} {offset successor : Nat}
  {step : Step} {exit : Option Nat} {names names' : Naming} {state next : Machine.State}
  {effect : StackEffect} {store store' store₂ : Store} {unused rest locals : List Cell}
  {isKept : Bool} {code : List Instruction} {outcome : Outcome}
  (h : context.Repairs pool pool' decision sideEffects entry original simple repair live)

include h

/-- Where an instruction that keeps no pop leads to, all words are in use. -/
theorem unusedWords_eq_zero (hi : decision.evaluation.instruction? offset = some instruction)
    (hold : pool.Extends old)
    (hemits : decision.Emits old new offset instruction (repair.keptPops.contains offset) code none)
    (hl : decision.evaluation.Leads offset successor) :
    decision.unusedWords repair successor = 0 := by
  unfold Decision.unusedWords
  rw [if_neg]
  intro hkept
  obtain ⟨instruction', old', new', isKept', code', hi', hold', hemits'⟩ :=
    h.carried.eq_of_leads_kept hkept hl
  cases hi.symm.trans hi'
  obtain ⟨-, hnot, effect, pop, he, -⟩ := h.discards_of_keeps hold' hi hemits'
  have hfalse : repair.keptPops.contains offset = false := by
    refine Bool.eq_false_iff.mpr fun hcontains => ?_
    obtain ⟨_, _, _, _, -, hb, -⟩ := h.faithful.passes hl
    obtain ⟨hshuffle, -⟩ := h.presentBelow_of_kept hb hi he (h.kept offset hcontains)
    exact absurd (hnot.symm.trans hshuffle) Bool.false_ne_true
  rw [hfalse] at hemits
  cases Decision.Emits.keeps_eq hold hold' ⟨effect, he⟩ hemits hemits'

/-- A store that agrees with what a step leaves matches the state behind the step. -/
theorem matches_of_after
    (ha : decision.evaluation.Advances context.preciseOptions pool context.code.handlers state next
      before instruction step exit names names')
    (hreached : decision.Reached state) (hreached' : decision.Reached next)
    (he : instruction.stackEffect pool = .ok effect)
    (hafter : decision.marks.AgreeAfter state.offset (before.stack.height - effect.pops)
      before.stack step.frame.locals next.toStore ⟨rest, locals⟩)
    (hunused : unused.length = decision.unusedWords repair next.offset) :
    decision.Matches repair next ⟨unused ++ rest, locals⟩ := by
  obtain ⟨hr', before', names'', hb', hholds⟩ := hreached'
  exact ⟨⟨hr', before', names'', hb', hholds⟩, before', unused, rest, hb', rfl, hunused,
    h.presence.agree_of_after hreached.1 hr' ha.recorded hb' ha.settled he ha.successor ha.receives
      hafter ha.holds_after.height_eq⟩

variable {body : List (Nat × Instruction)} {placed : List (Nat × Nat)} {size : Nat}

theorem piece (hlays : repair.edit.Lays decision.evaluation.instructions body placed size)
    (hi : decision.evaluation.instruction? offset = some instruction) :
    Edit.Laid placed size body (moved placed size offset)
      (((repair.edit.site offset).emitted instruction).map (offset, ·))
      (moved placed size (decision.evaluation.nextOffset offset)) := by
  have hnext : decision.evaluation.nextOffset offset = offset + instruction.length offset :=
    Listing.nextOffset_of_get? hi
  rw [hnext]
  exact hlays.piece offset instruction ((Listing.get?_eq_some_iff h.faithful.listing).mp hi)

/-- A pop that is kept takes the words that it is kept for. -/
theorem performs_keptPop
    (ha : decision.evaluation.Advances context.preciseOptions pool context.code.handlers state next
      before instruction step exit names names')
    (hr : decision.marks.reachable.contains state.offset = true)
    (hkept : repair.keptPops.contains state.offset = true)
    (hunused : unused.length = decision.unusedWords repair state.offset)
    (hagree : decision.marks.Agree before state.toStore ⟨rest, locals⟩) :
    exit = none ∧ ∃ effect, instruction.stackEffect pool = .ok effect ∧
      Machine.Performs pool' [instruction] ⟨unused ++ rest, locals⟩ ⟨rest, locals⟩ ∧
      decision.marks.AgreeAfter state.offset (before.stack.height - effect.pops) before.stack
        step.frame.locals next.toStore ⟨rest, locals⟩ := by
  obtain ⟨⟨producer, first⟩, hmem, old, new, isKept, code, hold, hemits⟩ := h.kept _ hkept
  have hfirst := (Listing.get?_eq_some_iff h.faithful.listing).mpr hmem
  obtain ⟨-, -, effect', pop, -, hpop, hshuffle, heffect, habsent⟩ :=
    h.discards_of_keeps hold hfirst hemits
  cases ha.settled.listed.symm.trans hpop
  obtain ⟨move, hmove⟩ := Option.isSome_iff_exists.mp hshuffle
  have hop := Instruction.shuffle?_eq_some_iff.mp hmove
  have hexit := (Machine.shuffle_of_execute hop ha.execute).1
  have hsame := (heffect pool).symm.trans (stackEffect_of_shuffle hop pool)
  obtain ⟨hpops, houtputs⟩ := StackEffect.mk.inj (Except.ok.inj hsame)
  have hnothing : move.outputs = [] := List.length_eq_zero_iff.mp houtputs.symm
  have hlength : unused.length = move.pops := by
    simp only [hunused, Decision.unusedWords, hkept, if_true, hpop, Option.bind_some, hmove,
      Option.elim_some]
  have hcopied : move.copied? (unused ++ rest) = some [] := by
    unfold Shuffle.copied?
    rw [if_pos (by rw [List.length_append]; omega), hnothing]
    rfl
  refine ⟨hexit, ⟨effect'.pushes, 0⟩, heffect pool, ?_, ?_⟩
  · refine Machine.performs_singleton ?_
    rw [Machine.execute_of_shuffle hop hcopied, List.drop_left' hlength, List.nil_append]
  · obtain ⟨_, _, he, -, -, hmoves⟩ :=
      Context.execute_effect ha.settled.execute (h.faithful.fits _ _ hpop)
    cases (heffect pool).symm.trans he
    have hnone : decision.inputPops state.offset effect'.pushes = .ok [] := by
      have hstack : Decision.recorded (decision.evaluation.stackBefore? state.offset) state.offset =
          .ok before.stack :=
        (orDefect_eq_ok ..).mpr (congrArg (Option.map Frame.stack) ha.recorded)
      have hle := hmoves.le_height
      simp only at hle
      simp only [Decision.inputPops, hstack, bind, Except.bind, pure, Except.pure,
        Nat.not_lt.mpr hle, if_false, Marks.popsDownTo_eq_nil (habsent before ha.recorded)]
    have hstores : ¬ instruction.Stores := by
      rintro (⟨kind, slot, hstore⟩ | hincrement)
      · rw [hop] at hstore
        cases hstore
      · rw [hop] at hincrement
        cases hincrement
    obtain ⟨given, below, rest', -, hgiven, hperforms, hafter⟩ := h.agreeAfter_of_pops pool' ha hr
      (fun hs => absurd hs hstores) (heffect pool) (.inr hnone) hagree
    cases hperforms
    rw [List.length_eq_zero_iff.mp hgiven] at hafter
    exact hafter [] .nil

/-- Where a branch is not necessary but leaves pops, the present words become fewer. -/
theorem presentBefore?_ne
    (ha : decision.evaluation.Advances context.preciseOptions pool context.code.handlers state next
      before instruction step exit names names')
    (hreached : decision.Reached state) (hreached' : decision.Reached next)
    (hn : decision.marks.necessary.contains state.offset = false)
    (hlive : live.contains state.offset = true) (hnot : instruction.isShuffle = false)
    (he : instruction.stackEffect pool = .ok effect) (hpushes : effect.pushes = 0) :
    decision.presentBefore? next.offset ≠ decision.presentBefore? state.offset := by
  have hleaves := ((Subject.liveCode_spec h.live).2.1 state.offset hlive).resolve_left
    (by rw [hn]; exact Bool.false_ne_true)
  obtain ⟨_, _, after, _, hi, hb, hafter, he', hpasses⟩ := h.faithful.passes (h.leads ha)
  cases ha.settled.listed.symm.trans hi
  cases ha.recorded.symm.trans hb
  cases he.symm.trans he'
  have hcount := h.presence.presentBelow_of_passes hreached.1 hreached'.1 hb hafter hpasses
  obtain ⟨position, hge, hlt, hpresent⟩ :=
    Subject.exists_present_of_leavesCode hleaves.2 hb hi hnot he hpushes
  have hfewer := decision.marks.presentBelow_lt hge hlt hpresent
  rw [hpushes, List.range_zero, List.countP_nil, Nat.add_zero] at hcount
  simp only [Decision.presentBefore?, hb, hafter, Option.map_some, hcount, ne_eq,
    Option.some.injEq]
  omega

/-- Behind the code that is left of an instruction that is not necessary, the new code continues as
the body does, if the run of the body ends. -/
theorem moved_of_unnecessary (hconservative : context.around.settings.conservative = true)
    (hlays : repair.edit.Lays decision.evaluation.instructions body placed size)
    (ha : decision.evaluation.Advances context.preciseOptions pool context.code.handlers state next
      before instruction step exit names names')
    (hreached : decision.Reached state) (hreached' : decision.Reached next)
    (hn : decision.marks.necessary.contains state.offset = false)
    (hnot : instruction.isShuffle = false)
    (hfinishes : Machine.Finishes pool decision.evaluation.instructions next outcome) :
    moved placed size next.offset =
      moved placed size (decision.evaluation.nextOffset state.offset) := by
  have hlisted := Option.isSome_of_eq_some ha.settled.listed
  have hbound {o : Nat} {instruction : Instruction}
      (hi : decision.evaluation.instruction? o = some instruction) (hlt : state.offset < o) :
      decision.evaluation.nextOffset state.offset ≤ o :=
    Listing.nextOffset_le h.faithful.listing hlisted (Option.isSome_of_eq_some hi) hlt
  have hafter : state.offset < decision.evaluation.nextOffset state.offset :=
    Listing.lt_nextOffset ha.settled.listed
  rcases h.carried.dead_of_unnecessary hreached.1 hn ha.settled.listed ha.branches (h.leads ha) with
    ⟨hge, hover⟩ | ⟨hle, hback⟩
  · -- forwards
    refine (h.carried.moved_eq hlays hge (fun o instruction hi hlt => ?_)
      (h.carried.not_kept_nextOffset ha.settled.listed hn) fun o _ _ => hover o).symm
    rcases Nat.lt_trichotomy o state.offset with hbefore | rfl | hbehind
    · have := Listing.nextOffset_le h.faithful.listing (Option.isSome_of_eq_some hi) hlisted hbefore
      exact Nat.le_of_lt (Nat.lt_of_le_of_lt this hafter)
    · exact Nat.le_refl _
    · exact absurd hlt (Nat.not_lt.mpr (hbound hi hbehind))
  · by_cases hlive : live.contains state.offset = true
    · -- backwards
      obtain ⟨effect, _, he, -⟩ :=
        Context.execute_effect ha.settled.execute (h.faithful.fits _ _ ha.settled.listed)
      have hpushes : effect.pushes = 0 := by
        by_contra hne
        obtain rfl := Machine.exit_eq_none he (Nat.pos_of_ne_zero hne) ha.execute
        have := ha.nextOffset_eq
        omega
      have hfewer := h.presentBefore?_ne ha hreached hreached' hn hlive hnot he hpushes
      refine absurd hfinishes (h.not_finishes_of_rewind hconservative ha.settled.listed hlive
        hreached' (Nat.lt_of_le_of_ne hle fun heq => hfewer ?_) hback hfewer)
      rw [heq]
    · obtain ⟨_, _, _, -, hsettled⟩ := h.presence.settled hreached'.1
      refine h.carried.moved_eq hlays (Nat.le_of_lt (Nat.lt_of_le_of_lt hle hafter))
        (fun o instruction hi hlt => Listing.nextOffset_le h.faithful.listing
          (Option.isSome_of_eq_some hi) (Option.isSome_of_eq_some hsettled.listed) hlt)
        (h.carried.not_kept_of_leads hn (h.leads ha)) fun o instruction hi hge hlt => ?_
      rcases Nat.lt_trichotomy o state.offset with hbefore | rfl | hbehind
      · exact hback o hge hbefore
      · exact Bool.eq_false_iff.mpr hlive
      · exact absurd hlt (Nat.not_lt.mpr (hbound hi hbehind))

theorem pushes_le_two
    (ha : decision.evaluation.Advances context.preciseOptions pool context.code.handlers state next
      before instruction step exit names names') (hnot : instruction.isShuffle = false)
    (he : instruction.stackEffect pool = .ok effect) (hpos : 0 < effect.pushes) :
    effect.pushes = 1 ∨ effect.pushes = 2 := by
  obtain ⟨_, he', hsize⟩ := Context.pushes_of_execute ha.settled.execute
    (h.faithful.fits _ _ ha.settled.listed) hnot
  cases he.symm.trans he'
  exact hsize.resolve_left (Nat.pos_iff_ne_zero.mp hpos)

/-- **A step of the body is a run of the new code**, if the run of the body ends. -/
theorem finishes_of_step (hconservative : context.around.settings.conservative = true)
    (hlength : pool.length ≤ 65536)
    (hlays : repair.edit.Lays decision.evaluation.instructions body placed size)
    (hmatches : decision.Matches repair state store')
    (hstep : Machine.step pool decision.evaluation.instructions state = .ok next)
    (hfinishes : Machine.Finishes pool decision.evaluation.instructions next outcome)
    (ih : ∀ store'', decision.Matches repair next store'' →
      Machine.Finishes pool' body ⟨store'', moved placed size next.offset⟩ outcome) :
    Machine.Finishes pool' body ⟨store', moved placed size state.offset⟩ outcome := by
  obtain ⟨hreached, before, unused, rest, hb, hstack, hunused, hagree⟩ := hmatches
  obtain ⟨stack', locals⟩ := store'
  subst hstack
  obtain ⟨hreached', before', instruction, step, exit, names, names', ha⟩ :=
    h.advances_of_step hreached hstep
  cases hb.symm.trans ha.recorded
  have hi := ha.settled.listed
  have hr := hreached.1
  obtain ⟨effect, _, he, -⟩ := Context.execute_effect ha.settled.execute (h.faithful.fits _ _ hi)
  obtain ⟨old, new, keeps, hold, hnew, hlast, hemits, hkeeps⟩ := h.repaired _ _ hi
  have hused (hk : keeps = none) :
      ([] : List Cell).length = decision.unusedWords repair next.offset :=
    (h.unusedWords_eq_zero hi hold (hk ▸ hemits) (h.leads ha)).symm
  have hnil (hnot : instruction.isShuffle = false) : unused = [] := by
    rw [Decision.unusedWords_of_not_shuffle hi hnot] at hunused
    exact List.length_eq_zero_iff.mp hunused
  have hlaid := h.piece hlays hi
  have hgo {store₂ : Store} (hk : keeps = none)
      (hperforms : Machine.Performs pool' ((repair.edit.site state.offset).emitted instruction)
        ⟨unused ++ rest, locals⟩ store₂)
      (hafter : decision.marks.AgreeAfter state.offset (before.stack.height - effect.pops)
        before.stack step.frame.locals next.toStore store₂)
      (hnext : moved placed size next.offset =
        moved placed size (decision.evaluation.nextOffset state.offset)) :
      Machine.Finishes pool' body ⟨⟨unused ++ rest, locals⟩, moved placed size state.offset⟩
        outcome := by
    refine hlaid.finishes_of_performs hperforms ?_
    rw [← hnext]
    exact ih _ (h.matches_of_after ha hreached hreached' he hafter (hused hk))
  have heffect {effect' : StackEffect} (he' : instruction.stackEffect old = .ok effect') :
      effect' = effect :=
    Except.ok.inj (he'.symm.trans (instruction.stable_stackEffect _ _ _ hold he))
  generalize (repair.edit.site state.offset).emitted instruction = code at *
  cases hemits with
  | unreachable hr' => exact absurd (hr'.symm.trans hr) Bool.false_ne_true
  | keptPop _ _ hk =>
    obtain ⟨rfl, effect', he', hperforms, hafter⟩ := h.performs_keptPop ha hr hk hunused hagree
    cases he.symm.trans he'
    exact hgo rfl hperforms hafter (by rw [ha.nextOffset_eq])
  | @shuffle stack inputs outputs plan _ hs hk hb' hw hp =>
    obtain ⟨move, hmove⟩ := Option.isSome_iff_exists.mp hs
    have hop := Instruction.shuffle?_eq_some_iff.mp hmove
    cases he.symm.trans (stackEffect_of_shuffle hop pool)
    obtain rfl : before.stack = stack :=
      Option.some.inj ((congrArg (Option.map Frame.stack) ha.recorded).symm.trans hb')
    obtain rfl : unused = [] := by
      simp only [Decision.unusedWords, hk, Bool.false_eq_true, if_false] at hunused
      exact List.length_eq_zero_iff.mp hunused
    obtain ⟨rfl, store₂, hperforms, hafter⟩ := h.agreeAfter_of_shuffle pool' ha hr hop hw hp hagree
    exact hgo rfl hperforms hafter (by rw [ha.nextOffset_eq])
  | @stays effect' output hhandles hn ho hgives =>
    obtain rfl := heffect hhandles.effect
    obtain rfl := hnil hhandles.not_shuffle
    obtain ⟨store₂, hexecute, hafter⟩ := h.agreeAfter_of_stays h.appended ha
      (hhandles.of_effect he) hn ho hgives hagree
    cases exit with
    | none => exact hgo rfl (Machine.performs_singleton hexecute) hafter (by rw [ha.nextOffset_eq])
    | some place =>
      obtain ⟨displacement, hd, htarget⟩ := Machine.displacement_of_resolve ha.resolve
      exact hlaid.finishes_of_branch hexecute hd htarget
        (ih _ (h.matches_of_after ha hreached hreached' he hafter (hused rfl)))
  | call _ _ _ hcall =>
    have hexecute := ha.execute
    unfold Machine.execute Machine.perform at hexecute
    simp only [hcall] at hexecute
    cases hexecute
  | @discards effect' hhandles hn ho hcall hpushes hpop =>
    obtain rfl := heffect hhandles.effect
    obtain rfl := hnil hhandles.not_shuffle
    obtain ⟨given, store₂, hgiven, hexecute, hafter⟩ := h.agreeAfter_of_unused h.appended ha
      (hhandles.of_effect he) hn ho hagree
    obtain rfl := Machine.exit_eq_none he hpushes ha.execute
    have hpop : Machine.execute pool' (popOf effect'.pushes)
        ⟨given ++ store₂.stack, store₂.locals⟩ = .ok (none, store₂) := by
      rw [Machine.execute_popOf (h.pushes_le_two ha hhandles.not_shuffle he hpushes)
        (by rw [List.length_append]; omega), List.drop_left' hgiven]
    exact hgo rfl (.cons hexecute (Machine.performs_singleton hpop)) hafter
      (by rw [ha.nextOffset_eq])
  | @keeps effect' next' hhandles hn ho hcall hpushes hpop =>
    obtain rfl := heffect hhandles.effect
    obtain rfl := hnil hhandles.not_shuffle
    obtain ⟨given, store₂, hgiven, hexecute, hafter⟩ := h.agreeAfter_of_unused h.appended ha
      (hhandles.of_effect he) hn ho hagree
    obtain rfl := Machine.exit_eq_none he hpushes ha.execute
    obtain ⟨hnext, -, effect, pop, he', hpop, hshuffle, hpops, -⟩ :=
      h.discards_of_keeps hold hi (.keeps hhandles hn ho hcall hpushes hpop : decision.Emits old new
        state.offset instruction false [instruction] (some next'))
    cases he.symm.trans he'
    have hunused' : given.length = decision.unusedWords repair next.offset := by
      rw [ha.nextOffset_eq, ← hnext,
        Decision.unusedWords_of_pop (hkeeps next' rfl) hpop hshuffle (hpops pool), hgiven]
    refine hlaid.finishes_of_performs (Machine.performs_singleton hexecute) ?_
    rw [← ha.nextOffset_eq]
    exact ih _ (h.matches_of_after ha hreached hreached' he hafter hunused')
  | @constant effect' value pops push hhandles hn hp hv =>
    obtain rfl := heffect hhandles.effect
    obtain rfl := hnil hhandles.not_shuffle
    have hbounded : new.length ≤ 65536 := by
      have := (hold.trans hnew).length
      omega
    obtain ⟨rfl, store₂, hperforms, hafter⟩ := h.agreeAfter_of_constant h.ignores hlast hbounded ha
      hr hn hhandles.reduction he hp hv hagree
    exact hgo rfl hperforms hafter (by rw [ha.nextOffset_eq])
  | @«alias» effect' slot index access kind hhandles hn haccess =>
    obtain rfl := heffect hhandles.effect
    obtain rfl := hnil hhandles.not_shuffle
    obtain ⟨rfl, store₂, hperforms, hafter⟩ := h.agreeAfter_of_alias pool' h.ignores ha hr hn
      hhandles.reduction he haccess hagree
    exact hgo rfl hperforms hafter (by rw [ha.nextOffset_eq])
  | @goto effect' target pops displacement hhandles hn hp hd =>
    obtain rfl := heffect hhandles.effect
    obtain rfl := hnil hhandles.not_shuffle
    obtain ⟨store₂, hperforms, hafter⟩ := h.agreeAfter_of_branch pool' ha hr
      (Reduction.not_pushes_goto _) (by nofun) hhandles.reduction he hp hagree
    have horiginal := h.presence.marked.loops.eq_of_ne_loop hhandles.reduction nofun
    obtain rfl : target = next.offset := by
      rcases h.ruled.eq_of_reduced (h.leads ha) horiginal with hgoto | ⟨-, hne⟩
      · cases hgoto
        rfl
      · exact absurd rfl (hne target)
    rw [List.map_append, Edit.Laid.append_iff] at hlaid
    obtain ⟨middle, hpops, hjump⟩ := hlaid
    refine hpops.finishes_of_performs hperforms
      (hjump.finishes_of_branch (Machine.execute_goto pool' displacement store₂) rfl
        (toInt_of_displacementTo hd) ?_)
    exact ih _ (h.matches_of_after ha hreached hreached' he hafter (hused rfl))
  | @loop effect' pops hhandles hn hp =>
    rcases h.presence.marked.loops state.offset with
      hsame | ⟨hloop, reduction, head, horiginal, hgoto, htraps⟩
    · exact absurd (hsame.symm.trans hhandles.reduction) (h.ruled.ne_loop state.offset)
    · obtain ⟨live', hlive, -, hdead⟩ := h.presence.marked.straddles
      cases h.live.symm.trans hlive
      have hhead := h.ruled.eq_of_backwardGoto? (h.leads ha) horiginal hgoto
      refine absurd hfinishes (h.not_finishes_of_loop hconservative hloop horiginal hgoto htraps
        (fun o hge hlt => Subject.contains_eq_false_of_anyIn
          (hdead state.offset reduction head hloop horiginal hgoto) hge hlt) hreached' ?_ ?_)
      · rw [hhead]
      · rw [hhead]
        exact (Subject.backwardGoto?_eq_some hgoto).1
  | @drop effect' pops hhandles hn hp =>
    obtain rfl := heffect hhandles.effect
    obtain rfl := hnil hhandles.not_shuffle
    obtain ⟨store₂, hperforms, hafter⟩ := h.agreeAfter_of_branch pool' ha hr
      Reduction.not_pushes_drop (by nofun) hhandles.reduction he hp hagree
    have horiginal := h.presence.marked.loops.eq_of_ne_loop hhandles.reduction nofun
    rcases h.ruled.eq_of_reduced (h.leads ha) horiginal with hgoto | ⟨hnext, -⟩
    · cases hgoto
    · exact hgo rfl hperforms hafter (by rw [hnext])
  | @unnecessary effect' reduction output placeholder pops hhandles hn ho hplaceholder hp =>
    obtain rfl := heffect hhandles.effect
    obtain rfl := hnil hhandles.not_shuffle
    have hbounded : pool'.length ≤ 65536 := by
      have := h.appended.length
      omega
    obtain ⟨store₂, hperforms, hafter⟩ := h.agreeAfter_of_unnecessary pool' hbounded ha hr
      hhandles.not_shuffle hn he ho hplaceholder hp hagree
    exact hgo rfl hperforms hafter (h.moved_of_unnecessary hconservative hlays ha hreached hreached'
      hn hhandles.not_shuffle hfinishes)

/-- **Where the run of the body ends, the new code ends in the same way.** -/
theorem finishes_of_end (hconservative : context.around.settings.conservative = true)
    (hlays : repair.edit.Lays decision.evaluation.instructions body placed size)
    (hmatches : decision.Matches repair state store')
    (hstep : Machine.step pool decision.evaluation.instructions state =
      .error (.finished outcome)) :
    Machine.Finishes pool' body ⟨store', moved placed size state.offset⟩ outcome := by
  obtain ⟨⟨hr, before, names, hb, hholds⟩, before', unused, rest, hb', hstack, hunused, hagree⟩ :=
    hmatches
  cases hb.symm.trans hb'
  obtain ⟨stack', locals⟩ := store'
  subst hstack
  obtain ⟨instruction, hlookup, hfinished⟩ := Machine.step_eq_finished hstep
  have hi := Evaluation.instruction?_of_lookup h.faithful.listing hlookup
  obtain ⟨hn, hreduction, hnot⟩ :=
    h.necessary_of_finished hconservative hr hi hb hholds hfinished
  rw [Decision.unusedWords_of_not_shuffle hi hnot] at hunused
  obtain rfl := List.length_eq_zero_iff.mp hunused
  obtain ⟨before', instruction', step, hb', hs⟩ := h.presence.settled hr
  cases hi.symm.trans hs.listed
  cases hb.symm.trans hb'
  have hexecute := h.finished_of_necessary h.appended hb hs hn hreduction hnot hholds hagree
    hfinished
  have hlaid := h.piece hlays hi
  obtain ⟨old, new, keeps, -, -, -, hemits, -⟩ := h.repaired _ _ hi
  generalize (repair.edit.site state.offset).emitted instruction = code at hemits hlaid
  have hreduced {reduction : Option Reduction} {effect : StackEffect} {p : Prop}
      (hhandles : decision.Handles old state.offset instruction reduction effect)
      (hne : reduction ≠ none) : p :=
    absurd (Option.some.inj (hhandles.reduction.symm.trans hreduction)) hne
  cases hemits with
  | unreachable hr' => exact absurd (hr'.symm.trans hr) Bool.false_ne_true
  | keptPop _ hs => exact absurd (hnot.symm.trans hs) Bool.false_ne_true
  | shuffle _ hs => exact absurd (hnot.symm.trans hs) Bool.false_ne_true
  | stays => exact hlaid.finishes_of_finished hexecute
  | discards => exact hlaid.finishes_of_finished hexecute
  | keeps => exact hlaid.finishes_of_finished hexecute
  | call _ _ _ hcall =>
    have hends := Machine.ends_of_finished hfinished
    rw [hcall] at hends
    cases hends
  | unnecessary _ hn' => exact absurd (hn'.symm.trans hn) Bool.false_ne_true
  | constant hhandles => exact hreduced hhandles nofun
  | «alias» hhandles => exact hreduced hhandles nofun
  | goto hhandles => exact hreduced hhandles nofun
  | loop hhandles => exact hreduced hhandles nofun
  | drop hhandles => exact hreduced hhandles nofun

/-- **The new code ends as the body does.** -/
theorem finishes_of_run (hconservative : context.around.settings.conservative = true)
    (hlength : pool.length ≤ 65536)
    (hlays : repair.edit.Lays decision.evaluation.instructions body placed size)
    (hmatches : decision.Matches repair state store') {count : Nat}
    (hrun : Machine.run pool decision.evaluation.instructions count state =
      .error (.finished outcome)) :
    Machine.Finishes pool' body ⟨store', moved placed size state.offset⟩ outcome := by
  induction count generalizing state store' with
  | zero => cases hrun
  | succ count ih =>
    unfold Machine.run at hrun
    cases hstep : Machine.step pool decision.evaluation.instructions state with
    | ok next =>
      rw [hstep] at hrun
      exact h.finishes_of_step hconservative hlength hlays hmatches hstep ⟨count, hrun⟩
        fun store'' hmatches' => ih hmatches' hrun
    | error halt =>
      rw [hstep] at hrun
      cases hrun
      exact h.finishes_of_end hconservative hlays hmatches hstep

end MethodContext.Repairs

end JvmTrim
