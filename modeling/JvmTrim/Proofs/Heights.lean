import JvmTrim.Proofs.Balance
import JvmTrim.Proofs.TransferSound
import JvmTrim.StackHeight

/-!
# The heights of the operand stack

The search for stack heights follows every offset that it reaches, so its result is closed under the
control flow. `Followed` says what that means of one instruction; the search carries it with the
invariant that an offset with a height was followed or is still pending.

The search and the evaluation describe what an instruction does to the stack in two ways. Over every
frame that arises in an evaluation, they agree.

## Main definitions

* `Followed`: heights that account for one instruction
* `HeightsClosed`: heights that account for the control flow of a body
* `Listing.avoidsSubroutines`: bodies without subroutines

## Main results

* `heightsClosed_of_stackHeights`: the heights of a body are closed
* `stackHeights_eq_height`: the heights of a body are those of the stacks in its evaluation
-/

namespace JvmTrim

theorem Instruction.flow_ne_subroutine {instruction : Instruction}
    (h : instruction.fallsThrough = true) : instruction.flow ≠ .subroutine := by
  intro hflow
  unfold fallsThrough at h
  rw [hflow] at h
  simp at h

/-- Whether some heights account for an instruction that control reaches with a stack of height
`before`: it finds the words that it pops, and control leaves it with the height that its effect
says. A subroutine comes back with the height that its caller had. -/
structure Followed (listing : Listing) (pool : ConstantPool) (heights : Array (Option Nat))
    (offset before : Nat) (instruction : Instruction) (effect : StackEffect)
    (targets : List Nat) : Prop where
  listed : listing.get? offset = some instruction
  affects : instruction.stackEffect pool = .ok effect
  leads : instruction.branchTargets offset = .ok targets
  pops : effect.pops ≤ before
  branches : ∀ target ∈ targets,
    heights[target]?.join = some (before - effect.pops + effect.pushes)
  next : instruction.fallsThrough = true → heights[offset + instruction.length offset]?.join =
    some (before - effect.pops + effect.pushes)
  returns : instruction.flow = .subroutine → offset + instruction.length offset < listing.size →
    heights[offset + instruction.length offset]?.join = some before

namespace HeightSearch

variable {listing : Listing} {pool : ConstantPool} {search search' : HeightSearch}

/-- Whether a search has noted a height before an instruction, if it has room for that. -/
def Notes (listing : Listing) (height offset : Nat) (search : HeightSearch) : Prop :=
  listing.isBoundary offset = true ∧
    (offset < search.heights.size → search.heights[offset]?.join = some height)

/-- What a search keeps while it goes on, and what it adds. -/
structure Extends (listing : Listing) (old new : HeightSearch) : Prop where
  size : new.heights.size = old.heights.size
  heights : ∀ {offset height : Nat}, old.heights[offset]?.join = some height →
    new.heights[offset]?.join = some height
  changed : ∀ {offset height : Nat}, new.heights[offset]?.join = some height →
    old.heights[offset]?.join = some height ∨ offset ∈ new.pending
  pending : ∀ {offset : Nat}, offset ∈ old.pending → offset ∈ new.pending
  fresh : ∀ {offset : Nat}, offset ∈ new.pending →
    offset ∈ old.pending ∨ ∃ height, Notes listing height offset new

theorem Notes.mono {height offset : Nat} (h : Notes listing height offset search)
    (he : Extends listing search search') : Notes listing height offset search' :=
  ⟨h.1, fun hlt => he.heights (h.2 (he.size ▸ hlt))⟩

theorem Extends.refl (search : HeightSearch) : Extends listing search search :=
  ⟨rfl, id, .inl, id, .inl⟩

theorem Extends.trans {a b c : HeightSearch} (hab : Extends listing a b)
    (hbc : Extends listing b c) : Extends listing a c where
  size := hbc.size.trans hab.size
  heights h := hbc.heights (hab.heights h)
  changed h := (hbc.changed h).elim (fun h => (hab.changed h).imp_right hbc.pending) .inr
  pending h := hbc.pending (hab.pending h)
  fresh h := by
    rcases hbc.fresh h with hb | hc
    · exact (hab.fresh hb).imp_right fun ⟨height, hn⟩ => ⟨height, hn.mono hbc⟩
    · exact .inr hc

theorem reach_spec {offset height : Nat} (h : search.reach listing offset height = .ok search') :
    Extends listing search search' ∧ Notes listing height offset search' := by
  unfold reach at h
  split at h
  · rename_i hboundary
    split at h
    · rename_i existing hexisting
      split at h
      · rename_i hsame
        cases h
        exact ⟨.refl search, hboundary, fun _ => hsame ▸ hexisting⟩
      · cases h
    · rename_i hnone
      cases h
      have hnoted : Notes listing height offset
          ⟨search.heights.setIfInBounds offset (some height), offset :: search.pending⟩ := by
        refine ⟨hboundary, fun hlt => ?_⟩
        rw [Array.size_setIfInBounds] at hlt
        simp [Array.getElem?_setIfInBounds_self_of_lt hlt]
      refine ⟨⟨by simp, ?_, ?_, List.mem_cons_of_mem _, ?_⟩, hnoted⟩
      · intro o height' ho
        have hne : offset ≠ o := by
          rintro rfl
          cases hnone.symm.trans ho
        simpa [Array.getElem?_setIfInBounds_ne hne] using ho
      · intro o height' ho
        by_cases heq : offset = o
        · exact .inr (heq ▸ List.mem_cons_self)
        · exact .inl (by simpa [Array.getElem?_setIfInBounds_ne heq] using ho)
      · intro o ho
        rcases List.mem_cons.mp ho with rfl | ho
        · exact .inr ⟨height, hnoted⟩
        · exact .inl ho
  · cases h

theorem reachAll_spec {offsets : List Nat} {height : Nat}
    (h : search.reachAll listing offsets height = .ok search') :
    Extends listing search search' ∧ ∀ offset ∈ offsets, Notes listing height offset search' :=
  foldlM_along (Extends listing) (Notes listing height) .refl .trans .mono
    (fun _ _ _ _ hstep => reach_spec hstep) h

/-- Following an instruction notes the heights of all offsets that control leaves it to. -/
theorem follow_spec {offset before : Nat} (h : search.follow listing pool offset = .ok search')
    (hbefore : search.heights[offset]?.join = some before)
    (hroom : ∀ o, listing.isBoundary o = true → o < search.heights.size) :
    Extends listing search search' ∧ ∃ instruction effect targets,
      Followed listing pool search'.heights offset before instruction effect targets := by
  obtain ⟨instruction, hi, h⟩ := Except.bind_eq_ok.mp h
  rw [orFail_eq_ok] at hi
  simp only [hbefore, Option.getD_some] at h
  obtain ⟨effect, heffect, h⟩ := Except.bind_eq_ok.mp h
  by_cases hpops : effect.pops > before
  · rw [if_pos hpops] at h
    cases h
  rw [if_neg hpops] at h
  obtain ⟨-, -, h⟩ := Except.bind_eq_ok.mp h
  obtain ⟨targets, htargets, h⟩ := Except.bind_eq_ok.mp h
  obtain ⟨branched, hbranched, h⟩ := Except.bind_eq_ok.mp h
  obtain ⟨hgrown, hnoted⟩ := reachAll_spec hbranched
  have hnext : Extends listing branched search' ∧
      (instruction.fallsThrough = true → Notes listing (before - effect.pops + effect.pushes)
        (offset + instruction.length offset) search') ∧
      (instruction.flow = .subroutine → offset + instruction.length offset < listing.size →
        Notes listing before (offset + instruction.length offset) search') := by
    have hfalls : instruction.fallsThrough = true → instruction.flow ≠ .subroutine :=
      Instruction.flow_ne_subroutine
    split at h
    · rename_i hflow
      split at h
      · obtain ⟨hext, hnote⟩ := reach_spec h
        exact ⟨hext, fun hf => absurd hflow (hfalls hf), fun _ _ => hnote⟩
      · rename_i hend
        cases h
        exact ⟨.refl _, fun hf => absurd hflow (hfalls hf), fun _ hlt => absurd hlt hend⟩
    · rename_i hflow
      split at h
      · obtain ⟨hext, hnote⟩ := reach_spec h
        exact ⟨hext, fun _ => hnote, fun hf => absurd hf hflow⟩
      · rename_i hf
        cases h
        exact ⟨.refl _, fun hf' => absurd hf' hf, fun hf' => absurd hf' hflow⟩
  obtain ⟨hlast, hfall, hreturn⟩ := hnext
  have hall := hgrown.trans hlast
  have hheight {height o : Nat} (hn : Notes listing height o search') :
      search'.heights[o]?.join = some height := hn.2 (hall.size ▸ hroom o hn.1)
  exact ⟨hall, instruction, effect, targets, hi, heffect, htargets, by omega,
    fun target ht => hheight ((hnoted target ht).mono hlast), fun hf => hheight (hfall hf),
    fun hf hlt => hheight (hreturn hf hlt)⟩

theorem Extends.followed {offset before : Nat} {instruction : Instruction} {effect : StackEffect}
    {targets : List Nat} (he : Extends listing search search')
    (h : Followed listing pool search.heights offset before instruction effect targets) :
    Followed listing pool search'.heights offset before instruction effect targets where
  listed := h.listed
  affects := h.affects
  leads := h.leads
  pops := h.pops
  branches target ht := he.heights (h.branches target ht)
  next hf := he.heights (h.next hf)
  returns hf hlt := he.heights (h.returns hf hlt)

/-- Whether every pending offset has a height, and every offset with a height was followed or is
pending. -/
structure Invariant (listing : Listing) (pool : ConstantPool) (search : HeightSearch) : Prop where
  room : ∀ offset, listing.isBoundary offset = true → offset < search.heights.size
  known : ∀ offset ∈ search.pending, ∃ height, Notes listing height offset search
  followed : ∀ offset before, search.heights[offset]?.join = some before →
    offset ∈ search.pending ∨ ∃ instruction effect targets,
      Followed listing pool search.heights offset before instruction effect targets

theorem Invariant.height (hinv : search.Invariant listing pool) {height offset : Nat}
    (h : Notes listing height offset search) : search.heights[offset]?.join = some height :=
  h.2 (hinv.room offset h.1)

/-- Reaching offsets keeps the invariant. -/
theorem Invariant.extends (hinv : search.Invariant listing pool)
    (he : Extends listing search search') : search'.Invariant listing pool where
  room offset hb := he.size ▸ hinv.room offset hb
  known offset ho := by
    rcases he.fresh ho with hold | hnew
    · obtain ⟨height, hn⟩ := hinv.known offset hold
      exact ⟨height, hn.mono he⟩
    · exact hnew
  followed offset before hbefore := by
    rcases he.changed hbefore with hold | hpending
    · rcases hinv.followed offset before hold with hp | ⟨instruction, effect, targets, hfollowed⟩
      · exact .inl (he.pending hp)
      · exact .inr ⟨instruction, effect, targets, he.followed hfollowed⟩
    · exact .inl hpending

/-- Following the first pending offset keeps the invariant. -/
theorem Invariant.follow (hinv : search.Invariant listing pool) {offset : Nat} {rest : List Nat}
    (hpending : search.pending = offset :: rest)
    (h : follow listing pool offset { search with pending := rest } = .ok search') :
    Extends listing { search with pending := rest } search' ∧ search'.Invariant listing pool := by
  obtain ⟨before, hnoted⟩ := hinv.known offset (hpending ▸ List.mem_cons_self)
  have hbefore := hinv.height hnoted
  obtain ⟨hext, instruction, effect, targets, hfollowed⟩ := follow_spec h hbefore hinv.room
  have hrest {o : Nat} (ho : o ∈ rest) : o ∈ search.pending :=
    hpending ▸ List.mem_cons_of_mem offset ho
  refine ⟨hext, fun o hb => hext.size ▸ hinv.room o hb, fun o ho => ?_, fun o before' hb => ?_⟩
  · rcases hext.fresh ho with hold | hnew
    · obtain ⟨height, hn⟩ := hinv.known o (hrest hold)
      exact ⟨height, hn.1, fun hlt => hext.heights (hn.2 (hext.size ▸ hlt))⟩
    · exact hnew
  · rcases hext.changed hb with hold | hp
    · by_cases heq : o = offset
      · subst heq
        cases hbefore.symm.trans hold
        exact .inr ⟨instruction, effect, targets, hfollowed⟩
      · rcases hinv.followed o before' hold with hp | ⟨instruction', effect', targets', hf⟩
        · rw [hpending, List.mem_cons] at hp
          exact .inl (hext.pending (hp.resolve_left heq))
        · exact .inr ⟨instruction', effect', targets', hext.followed hf⟩
    · exact .inl hp

/-- The search ends with heights that were all followed, among them those it started with. -/
theorem run_spec {bound : Nat} {heights : Array (Option Nat)}
    (hinv : search.Invariant listing pool)
    (h : search.run listing pool bound = .ok heights) :
    (∀ offset height : Nat, search.heights[offset]?.join = some height →
      heights[offset]?.join = some height) ∧
    ∀ offset before : Nat, heights[offset]?.join = some before → ∃ instruction effect targets,
      Followed listing pool heights offset before instruction effect targets := by
  induction bound generalizing search with
  | zero =>
    rw [run] at h
    split at h
    · rename_i hnil
      cases h
      refine ⟨fun _ _ => id, fun offset before hb => (hinv.followed offset before hb).resolve_left ?_⟩
      simp [hnil]
    · cases h
  | succ bound ih =>
    rw [run] at h
    split at h
    · rename_i hnil
      cases h
      refine ⟨fun _ _ => id, fun offset before hb => (hinv.followed offset before hb).resolve_left ?_⟩
      simp [hnil]
    · rename_i offset rest hpending
      obtain ⟨followed, hfollow, h⟩ := Except.bind_eq_ok.mp h
      obtain ⟨hext, hinv'⟩ := hinv.follow hpending hfollow
      obtain ⟨hkept, hall⟩ := ih hinv' h
      exact ⟨fun o height ho => hkept o height (hext.heights ho), hall⟩

end HeightSearch

/-- Whether heights account for the control flow of a body: the body is entered with an empty stack,
its handlers with the exception on the stack, and every instruction with a height was followed. -/
structure HeightsClosed (listing : Listing) (pool : ConstantPool) (handlers : List Handler)
    (heights : Array (Option Nat)) : Prop where
  entry : 0 < listing.size → heights[0]?.join = some 0
  handlers : ∀ handler ∈ handlers, heights[handler.target]?.join = some 1
  followed : ∀ offset before, heights[offset]?.join = some before →
    ∃ instruction effect targets,
      Followed listing pool heights offset before instruction effect targets

/-- **The heights of a body are closed under its control flow.** -/
theorem heightsClosed_of_stackHeights {code : Code} {pool : ConstantPool}
    {heights : Array (Option Nat)} (h : stackHeights code pool = .ok heights) :
    ∃ listing, Listing.ofCode code.bytes = .ok listing ∧
      HeightsClosed listing pool code.handlers heights := by
  obtain ⟨listing, hlisting, h⟩ := Except.bind_eq_ok.mp h
  refine ⟨listing, hlisting, ?_⟩
  have hblank : HeightSearch.Invariant listing pool ⟨Array.replicate listing.size none, []⟩ := by
    refine ⟨fun offset hb => ?_, by simp, fun offset before hb => ?_⟩
    · obtain ⟨instruction, hmem⟩ := (Listing.isBoundary_iff hlisting).mp hb
      rw [Array.size_replicate, Listing.size_of_ofCode hlisting]
      exact lt_of_decodeAll (Listing.ofCode_eq_ok hlisting).1 _ hmem
    · rw [Array.getElem?_replicate] at hb
      split at hb <;> cases hb
  have hentry : ∃ entered : HeightSearch,
      HeightSearch.Extends listing ⟨Array.replicate listing.size none, []⟩ entered ∧
      (0 < listing.size → HeightSearch.Notes listing 0 0 entered) ∧
      (entered.reachAll listing (code.handlers.map (·.target)) 1 >>= fun search =>
        search.run listing pool listing.size) = .ok heights := by
    simp only at h
    split at h
    · obtain ⟨entered, hentered, h⟩ := Except.bind_eq_ok.mp h
      obtain ⟨he, hn⟩ := HeightSearch.reach_spec hentered
      exact ⟨entered, he, fun _ => hn, h⟩
    · rename_i hempty
      exact ⟨_, .refl _, fun hlt => absurd hlt hempty, h⟩
  obtain ⟨entered, hgrown, hentered, h⟩ := hentry
  obtain ⟨started, hstarted, h⟩ := Except.bind_eq_ok.mp h
  obtain ⟨hext, hnotes⟩ := HeightSearch.reachAll_spec hstarted
  have hinv := (hblank.extends hgrown).extends hext
  obtain ⟨hkept, hall⟩ := HeightSearch.run_spec hinv h
  refine ⟨fun hlt => hkept _ _ (hinv.height ((hentered hlt).mono hext)), fun handler hm => ?_, hall⟩
  exact hkept _ _ (hinv.height (hnotes _ (List.mem_map_of_mem hm)))

/-! ## The stacks of an evaluation -/

/-- Whether an instruction calls a subroutine or returns from one. -/
def Instruction.usesSubroutine (instruction : Instruction) : Bool :=
  match instruction.operation with
  | .subroutine | .ret => true
  | _ => false

/-- Whether no instruction of a body calls a subroutine or returns from one. -/
def Listing.avoidsSubroutines (listing : Listing) : Bool :=
  listing.instructions.all fun entry => !entry.2.usesSubroutine

theorem Listing.usesSubroutine_eq_false {code : List UInt8} {listing : Listing}
    (h : ofCode code = .ok listing) (havoids : listing.avoidsSubroutines = true) {offset : Nat}
    {instruction : Instruction} (hi : listing.get? offset = some instruction) :
    instruction.usesSubroutine = false := by
  have hall := List.all_eq_true.mp havoids _ ((get?_eq_some_iff h).mp hi)
  simpa using hall

/-- Without subroutines, control leaves an instruction to one of its targets or to the next
instruction. -/
theorem Context.mem_successors {context : Context} {offset next successor : Nat}
    {instruction : Instruction} {frame : Frame} {step : Step}
    (h : context.execute offset next instruction frame = .ok step)
    (havoids : instruction.usesSubroutine = false) (hs : successor ∈ step.successors) :
    (∃ targets, instruction.branchTargets offset = .ok targets ∧ successor ∈ targets ∧
      (instruction.flow = .conditional ∨ instruction.flow = .unconditional ∨
        instruction.flow = .switch)) ∨
      instruction.fallsThrough = true ∧ successor = next := by
  unfold Instruction.usesSubroutine at havoids
  cases executed_of_execute h with
  | branch hflow _ htarget =>
    obtain ⟨targets, htargets, hfirst⟩ := firstTarget_eq_ok htarget
    rcases mem_branchSuccessors hs with rfl | rfl
    · exact .inl ⟨targets, htargets, List.mem_of_getElem? hfirst, .inl hflow⟩
    · exact .inr ⟨Instruction.fallsThrough_of_conditional hflow, rfl⟩
  | jump hop htargets =>
    exact .inl ⟨_, htargets, hs, .inr (.inl (congrArg Operation.flow hop))⟩
  | chosen hop _ _ htargets hchosen =>
    obtain rfl := List.mem_singleton.mp hs
    rw [switchTarget_eq, orFail_eq_ok] at hchosen
    exact .inl ⟨_, htargets, List.mem_of_getElem? hchosen,
      .inr (.inr (congrArg Operation.flow hop))⟩
  | switch hop _ _ htargets =>
    exact .inl ⟨_, htargets, mem_ascending.mp hs, .inr (.inr (congrArg Operation.flow hop))⟩
  | subroutine hop | ret hop =>
    rw [hop] at havoids
    cases havoids
  | call hop =>
    exact .inr ⟨Instruction.fallsThrough_of_sequential (congrArg Operation.flow hop),
      List.mem_singleton.mp hs⟩
  | performs =>
    dsimp only at hs
    split at hs
    · rename_i hfalls
      exact .inr ⟨hfalls, List.mem_singleton.mp hs⟩
    · cases hs

theorem Context.height_execute {context : Context} {offset next : Nat} {instruction : Instruction}
    {frame : Frame} {step : Step} {effect : StackEffect}
    (h : context.execute offset next instruction frame = .ok step)
    (hfits : instruction.loadFits context.pool = true)
    (heffect : instruction.stackEffect context.pool = .ok effect) :
    step.frame.stack.height = frame.stack.height - effect.pops + effect.pushes := by
  obtain ⟨effect', pushed, heffect', hpushed, -, hmoves⟩ := execute_effect h hfits
  cases heffect.symm.trans heffect'
  obtain ⟨kept, hview, halike⟩ := hmoves.view
  rw [← Stack.length_view, hview, List.length_append, hpushed, halike.length_eq, List.length_drop,
    Stack.length_view, Nat.add_comm]

/-- A handler is entered with nothing but the exception on the stack. -/
theorem height_handlerFrame (detail : Detail) (target : Nat) (locals : Locals) :
    (handlerFrame detail target locals).stack.height = 1 := by
  have hwide := Value.isWide_of_kind? (detail.kind?_named .reference (.caught target) true)
  rw [← Stack.length_view, handlerFrame, Stack.view_push, Stack.view_empty, pushedWords, hwide]
  rfl

/-- The height of every frame that arises in an evaluation is the height found for its offset. -/
theorem Evaluation.Arises.height_eq {evaluation : Evaluation} {options : EvaluationOptions}
    {pool : ConstantPool} {code : Code} {entry frame : Frame} {heights : Array (Option Nat)}
    {offset : Nat} (hlisting : Listing.ofCode code.bytes = .ok evaluation.listing)
    (hclosed : evaluation.Closed options pool code.handlers)
    (hempty : entry.stack = Stack.empty)
    (hheights : HeightsClosed evaluation.listing pool code.handlers heights)
    (hfits : evaluation.listing.loadsFit pool = true)
    (havoids : evaluation.listing.avoidsSubroutines = true)
    (h : evaluation.Arises options pool code.handlers entry offset frame) :
    heights[offset]?.join = some frame.stack.height := by
  induction h with
  | entry hr =>
    obtain ⟨before, hbefore, -⟩ := hr
    obtain ⟨instruction, step, hsettled⟩ := hclosed.settled 0 before hbefore
    have hlt := lt_of_decodeAll (Listing.ofCode_eq_ok hlisting).1 _
      ((Listing.get?_eq_some_iff hlisting).mp hsettled.listed)
    rw [hempty]
    exact hheights.entry (Listing.size_of_ofCode hlisting ▸ hlt)
  | @step offset successor frame instruction step h hi he hs hr ih =>
    obtain ⟨instruction', effect, targets, hf⟩ := hheights.followed offset _ ih
    cases hi.symm.trans hf.listed
    rw [Context.height_execute he (Listing.loadFits_of_loadsFit hfits hi) hf.affects]
    rcases Context.mem_successors he (Listing.usesSubroutine_eq_false hlisting havoids hi) hs with
      ⟨targets', htargets, hmem, -⟩ | ⟨hfalls, rfl⟩
    · cases htargets.symm.trans hf.leads
      exact hf.branches successor hmem
    · rw [nextOffset, Listing.nextOffset_of_get? hi]
      exact hf.next hfalls
  | handler h hm hc hr ih =>
    rw [height_handlerFrame]
    exact hheights.handlers _ hm
  | join ha hb hj hr iha ihb =>
    obtain ⟨hsame, rfl⟩ := Frame.joinAt_eq_ok_iff.mp hj
    rw [iha]
    simp only [Stack.height, Array.size_zipWith] at hsame ⊢
    rw [hsame, Nat.min_self]

/-- **The search for heights and the evaluation agree.** Where a body calls no subroutines and its
constants have the widths that their loads expect, the height found before every traced offset is
the height of the stack that the evaluation finds there. -/
theorem stackHeights_eq_height {options : EvaluationOptions} {pool : ConstantPool} {owner : String}
    {method : Method} {code : Code} {evaluation : Evaluation} {heights : Array (Option Nat)}
    (hevaluate : evaluate options pool owner method code = .ok evaluation)
    (hheights : stackHeights code pool = .ok heights)
    (hfits : evaluation.listing.loadsFit pool = true)
    (havoids : evaluation.listing.avoidsSubroutines = true) {offset : Nat}
    (htraced : evaluation.isTraced offset = true) :
    ∃ stack, evaluation.stackBefore? offset = some stack ∧
      heights[offset]? = some (some stack.height) := by
  obtain ⟨hclosed, hlisting, -⟩ := closed_of_evaluate hevaluate
  obtain ⟨entry, hhistory⟩ := history_of_evaluate hevaluate
  obtain ⟨listing, hlisting', hheights⟩ := heightsClosed_of_stackHeights hheights
  cases hlisting.symm.trans hlisting'
  obtain ⟨frame, hframe⟩ := Option.isSome_iff_exists.mp (hclosed.traced offset htraced)
  have hheight := (hhistory.frames offset frame hframe).height_eq hlisting hclosed hhistory.stack
    hheights hfits havoids
  refine ⟨frame.stack, by simp [Evaluation.stackBefore?, hframe], ?_⟩
  rwa [Option.join_eq_some_iff] at hheight

/-- A division of a loaded long under a handler that returns zero. -/
def guardedShare : Code where
  maxStack := 4
  maxLocals := 2
  bytes := [0x14, 0, 1, 0x1E, 0x6D, 0xAD, 0x57, 0x09, 0xAD]
  handlers := [⟨0, 6, 6, 0⟩]
  lines := []
  localRanges := []

/-- The constants of its class. -/
def guardedSharePool : ConstantPool := ⟨#[none, some (.long 7), none]⟩

/-- The division finds its two operands, and the handler the exception. -/
theorem stackHeights_eq_height_guardedShare : ∃ evaluation heights,
    evaluate (.precise .none) guardedSharePool "Quotients"
        ⟨AccessFlags.static, "share", "(J)J", none⟩ guardedShare = .ok evaluation ∧
      stackHeights guardedShare guardedSharePool = .ok heights ∧
      (∃ stack, evaluation.stackBefore? 4 = some stack ∧
        heights[4]? = some (some stack.height)) ∧
      ∃ stack, evaluation.stackBefore? 6 = some stack ∧
        heights[6]? = some (some stack.height) := by
  obtain ⟨evaluation, h⟩ := Except.exists_ok (by decide +kernel :
    (evaluate (.precise .none) guardedSharePool "Quotients"
      ⟨AccessFlags.static, "share", "(J)J", none⟩ guardedShare).isOk = true)
  obtain ⟨heights, hheights⟩ := Except.exists_ok (by decide +kernel :
    (stackHeights guardedShare guardedSharePool).isOk = true)
  have hchecks : (evaluate (.precise .none) guardedSharePool "Quotients"
      ⟨AccessFlags.static, "share", "(J)J", none⟩ guardedShare).toOption.all (fun evaluation =>
        evaluation.listing.loadsFit guardedSharePool && evaluation.listing.avoidsSubroutines &&
          evaluation.isTraced 4 && evaluation.isTraced 6) = true := by
    decide +kernel
  simp only [h, Except.toOption, Option.all_some, Bool.and_eq_true] at hchecks
  obtain ⟨⟨⟨hfits, havoids⟩, hdivision⟩, hhandler⟩ := hchecks
  exact ⟨evaluation, heights, h, hheights,
    stackHeights_eq_height h hheights hfits havoids hdivision,
    stackHeights_eq_height h hheights hfits havoids hhandler⟩

end JvmTrim
