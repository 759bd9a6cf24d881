import JvmTrim.Proofs.Handlers
import JvmTrim.Proofs.Heights
import JvmTrim.Proofs.Preservation

/-!
# Simplified code is reachable

Every instruction of a simplified body is found by the search for stack heights. Control enters the
body at its start and at the targets of the handlers that are left, and every edge of the evaluation
leads the search along: the code that is emitted for an instruction falls through from its start to
its end, or ends with the branch that stays, or the branch has gone and led over no code. So the
search gets to wherever the code is that is emitted for a reachable instruction. Nothing is emitted
for others.

That a live handler is left asks for one thing that the bytes of a body do not promise: that the
range of the handler starts and ends between instructions. An entry for which this fails is dropped
although its code stays.

## Main definitions

* `Arrives`: positions that control gets to

## Main results

* `Decision.Emits.fallsThrough_of_mem_dropLast`: what is emitted for an instruction falls through up
  to the last instruction
* `MethodContext.Carried.arrives_of_leads`: an edge of the evaluation leads the search along
* `MethodContext.stackHeights_simplify`: every instruction of a simplified body has a height
-/

namespace JvmTrim

open Edit (moved)

/-! ## What falls through -/

theorem Instruction.flow_load (kind : Kind) (index : UInt16) :
    (Instruction.load kind index).flow = .sequential := by
  have haccess := Instruction.localAccess?_load kind index
  unfold localAccess? at haccess
  unfold flow
  split at haccess
  · rename_i hop
    rw [hop]
    rfl
  · cases haccess
  · cases haccess

theorem Instruction.fallsThrough_ofShuffle (move : Shuffle) :
    (Instruction.simple (Opcode.ofShuffle move)).fallsThrough = true :=
  fallsThrough_of_sequential (congrArg Operation.flow (operation_ofShuffle move))

theorem Instruction.fallsThrough_popOf (words : Nat) : (popOf words).fallsThrough = true :=
  popOf_eq words ▸ fallsThrough_ofShuffle _

theorem Instruction.flow_of_isShuffle {instruction : Instruction}
    (h : instruction.isShuffle = true) : instruction.flow = .sequential := by
  by_contra hflow
  exact absurd (h.symm.trans (isShuffle_of_flow hflow)) Bool.true_eq_false.mp

namespace Decision

variable {decision : Decision} {offset : Nat} {instruction emitted : Instruction}

theorem fallsThrough_of_mem_inputPops {count : Nat} {pops : List Instruction}
    (hp : decision.inputPops offset count = .ok pops) (hmem : emitted ∈ pops) :
    emitted.fallsThrough = true := by
  obtain ⟨words, rfl⟩ := eq_popOf_of_mem_inputPops hp hmem
  exact Instruction.fallsThrough_popOf words

/-- What gives words that are to be discarded falls through. -/
theorem flow_of_pushes {pool : ConstantPool} {effect : StackEffect}
    {reduction : Option Reduction} (h : decision.Handles pool offset instruction reduction effect)
    (hcall : instruction.operation ≠ .subroutine) (hpushes : 0 < effect.pushes) :
    instruction.flow = .sequential := by
  by_contra hflow
  have := Instruction.pushes_of_flow h.effect hflow hcall
  omega

theorem fallsThrough_of_unnecessary {effect : StackEffect} {output : Option Value}
    {placeholder : Option Instruction} {pops : List Instruction}
    (hplaceholder : output = none ∧ placeholder = none ∨ ∃ value push, output = some value ∧
      value.placeholderPush offset = .ok push ∧ placeholder = some push)
    (hp : effect.pops = 0 ∧ pops = [] ∨ decision.inputPops offset effect.pops = .ok pops)
    (hmem : emitted ∈ pops ++ placeholder.toList) : emitted.fallsThrough = true := by
  rcases List.mem_append.mp hmem with hmem | hmem
  · rcases hp with ⟨-, rfl⟩ | hp
    · cases hmem
    · exact fallsThrough_of_mem_inputPops hp hmem
  · rcases hplaceholder with ⟨-, rfl⟩ | ⟨value, push, -, hpush, rfl⟩
    · cases hmem
    · obtain rfl := List.mem_singleton.mp hmem
      obtain ⟨given, kind, hgives, -, -⟩ := gives_of_placeholderPush ⟨#[]⟩ hpush
      exact Instruction.fallsThrough_of_sequential hgives.flow_eq

/-- **What is emitted for an instruction falls through** up to the last instruction. -/
theorem Emits.fallsThrough_of_mem_dropLast {old new : ConstantPool} {isKept : Bool}
    {code : List Instruction} {keeps : Option Nat}
    (h : decision.Emits old new offset instruction isKept code keeps)
    (hmem : emitted ∈ code.dropLast) : emitted.fallsThrough = true := by
  cases h with
  | unreachable | keptPop | stays | call | keeps | «alias» => cases hmem
  | shuffle =>
    obtain ⟨move, -, rfl⟩ := List.mem_map.mp (List.dropLast_subset _ hmem)
    exact Instruction.fallsThrough_ofShuffle move
  | discards hhandles _ _ hcall hpushes =>
    obtain rfl := List.mem_singleton.mp hmem
    exact Instruction.fallsThrough_of_sequential (flow_of_pushes hhandles hcall hpushes)
  | constant _ _ hp | goto _ _ hp | loop _ _ hp =>
    rw [List.dropLast_concat] at hmem
    exact fallsThrough_of_mem_inputPops hp hmem
  | drop _ _ hp => exact fallsThrough_of_mem_inputPops hp (List.dropLast_subset _ hmem)
  | unnecessary _ _ _ hplaceholder hp =>
    exact fallsThrough_of_unnecessary hplaceholder hp (List.dropLast_subset _ hmem)

/-- Nothing is emitted for an instruction that is not reachable. -/
theorem Emits.reachable_of_ne_nil {old new : ConstantPool} {isKept : Bool}
    {code : List Instruction} {keeps : Option Nat}
    (h : decision.Emits old new offset instruction isKept code keeps) (hne : code ≠ []) :
    decision.marks.reachable.contains offset = true := by
  cases h with
  | unreachable => exact absurd rfl hne
  | keptPop hr | shuffle hr => exact hr
  | stays h | call h | discards h | keeps h | constant h | «alias» h | goto h | loop h | drop h
  | unnecessary h => exact h.reachable

end Decision

/-! ## The search in the new code -/

/-- Whether control gets to a position of a body, given the heights found for it. The end of the
body has no height, and counts as well. -/
def Arrives (heights : Array (Option Nat)) (size position : Nat) : Prop :=
  position = size ∨ ∃ height, heights[position]?.join = some height

theorem Instruction.operation_of_form {a b : Instruction} (h : a.form = b.stored.form) :
    a.operation = b.operation := by
  have hform (instruction : Instruction) : instruction.form.operation = instruction.operation := by
    rw [form, Machine.operation_mapDisplacements, Machine.operation_narrowed]
  rw [← hform a, h, hform, Machine.operation_stored]

theorem Instruction.flow_of_form {a b : Instruction} (h : a.form = b.stored.form) :
    a.flow = b.flow :=
  congrArg Operation.flow (operation_of_form h)

theorem Instruction.fallsThrough_of_form {a b : Instruction} (h : a.form = b.stored.form) :
    a.fallsThrough = b.fallsThrough := by
  unfold fallsThrough
  rw [flow_of_form h]

namespace Edit.Laid

variable {bytes : List UInt8} {listing : Listing} {pool : ConstantPool} {handlers : List Handler}
  {heights : Array (Option Nat)} {placed : List (Nat × Nat)} {position stop origin : Nat}
  {code : List Instruction} {result : Instruction}
  (hlisting : Listing.ofCode bytes = .ok listing)
  (hclosed : HeightsClosed listing pool handlers heights)

include hlisting hclosed

/-- Wherever control gets to, it follows the instruction there. -/
theorem followed (hlookup : listing.instructions.lookup position = some result)
    (harrives : Arrives heights listing.size position) :
    ∃ before effect targets, heights[position]?.join = some before ∧
      Followed listing pool heights position before result effect targets := by
  have hmem := mem_of_lookup_eq_some hlookup
  rcases harrives with rfl | ⟨before, hbefore⟩
  · have := lt_of_decodeAll (Listing.ofCode_eq_ok hlisting).1 _ hmem
    have := Listing.size_of_ofCode hlisting
    omega
  · obtain ⟨instruction, effect, targets, hf⟩ := hclosed.followed position before hbefore
    cases hf.listed.symm.trans ((Listing.get?_eq_some_iff hlisting).mpr hmem)
    exact ⟨before, effect, targets, hbefore, hf⟩

/-- Control falls through an instruction of a piece. -/
theorem arrives_next {source : Nat × Instruction}
    (hlookup : listing.instructions.lookup position = some result)
    (hstands : Stands placed listing.size source (position, result))
    (harrives : Arrives heights listing.size position) (hfalls : source.2.fallsThrough = true) :
    Arrives heights listing.size (position + result.length position) := by
  obtain ⟨before, effect, targets, -, hf⟩ := followed hlisting hclosed hlookup harrives
  exact .inr ⟨_, hf.next ((Instruction.fallsThrough_of_form hstands.form_eq).trans hfalls)⟩

/-- Control gets to the end of a piece that it falls through. -/
theorem arrives_end
    (h : Laid placed listing.size listing.instructions position (code.map (origin, ·)) stop)
    (harrives : Arrives heights listing.size position)
    (hfalls : ∀ emitted ∈ code, emitted.fallsThrough = true) :
    Arrives heights listing.size stop := by
  induction code generalizing position with
  | nil =>
    cases h
    exact harrives
  | cons instruction rest ih =>
    rw [List.forall_mem_cons] at hfalls
    cases h with
    | cons hlookup hstands hrest =>
      exact ih hrest (arrives_next hlisting hclosed hlookup hstands harrives hfalls.1) hfalls.2

/-- Control gets to where a branch of a piece leads to. -/
theorem arrives_branch {target : Nat} {instruction : Instruction} {displacement : Int32}
    (h : Laid placed listing.size listing.instructions position
      ((instruction :: code).map (origin, ·)) stop)
    (harrives : Arrives heights listing.size position)
    (hd : displacement ∈ instruction.displacements)
    (htarget : (origin : Int) + displacement.toInt = target) :
    Arrives heights listing.size (moved placed listing.size target) := by
  cases h with
  | @cons _ _ _ result _ hlookup hstands _ =>
    obtain ⟨before, effect, targets, -, hf⟩ := followed hlisting hclosed hlookup harrives
    obtain ⟨place, hplace⟩ := List.mem_iff_getElem?.mp hd
    have hlt : place < result.displacements.length := by
      rw [← hstands.targets.length_eq]
      exact (List.getElem?_eq_some_iff.mp hplace).1
    have hnew := List.getElem?_eq_getElem hlt
    have hsum := rel_of_forall₂ hstands.targets hplace hnew
    obtain ⟨target', hmem, hresolved⟩ :=
      (mem_of_mapM hf.leads).1 _ (List.mem_of_getElem? hnew)
    have heq := target_eq_ok hresolved
    simp only [htarget] at hsum
    have : target' = moved placed listing.size target := by
      rw [moved]
      omega
    exact .inr ⟨_, this ▸ hf.branches target' hmem⟩

/-- Control gets to every instruction of a piece that it falls through up to the last. -/
theorem exists_height
    (h : Laid placed listing.size listing.instructions position (code.map (origin, ·)) stop)
    (harrives : Arrives heights listing.size position)
    (hfalls : ∀ emitted ∈ code.dropLast, emitted.fallsThrough = true)
    {entry : Nat × Instruction} (hmem : entry ∈ listing.instructions) (hge : position ≤ entry.1)
    (hlt : entry.1 < stop) : ∃ height, heights[entry.1]?.join = some height := by
  induction code generalizing position with
  | nil =>
    cases h
    exact absurd hlt (Nat.not_lt.mpr hge)
  | cons instruction rest ih =>
    cases h with
    | @cons _ _ _ result _ hlookup hstands hrest =>
      obtain ⟨before, effect, targets, hbefore, hf⟩ := followed hlisting hclosed hlookup harrives
      rcases Nat.eq_or_lt_of_le hge with rfl | hlater
      · exact ⟨before, hbefore⟩
      have hnext : position + result.length position ≤ entry.1 := by
        have := Listing.nextOffset_le hlisting (Option.isSome_of_eq_some hf.listed)
          (Option.isSome_of_eq_some ((Listing.get?_eq_some_iff hlisting).mpr hmem)) hlater
        rwa [Listing.nextOffset_of_get? hf.listed] at this
      have hne : rest ≠ [] := by
        rintro rfl
        cases hrest
        exact absurd hlt (Nat.not_lt.mpr hnext)
      rw [List.dropLast_cons_of_ne_nil hne, List.forall_mem_cons] at hfalls
      exact ih hrest (arrives_next hlisting hclosed hlookup hstands harrives hfalls.1) hfalls.2
        hnext

end Edit.Laid

/-! ## From the body to the new code -/

theorem Instruction.operation_ne_subroutine {instruction : Instruction}
    (h : instruction.usesSubroutine = false) : instruction.operation ≠ .subroutine := by
  unfold usesSubroutine at h
  split at h
  · cases h
  · cases h
  · assumption

/-- Control goes from an instruction along a branch or to the next one, subroutines apart. -/
theorem MethodContext.Ruled.leads_cases {context : MethodContext} {pool : ConstantPool}
    {decision : Decision} {sideEffects : IndexSet} {entry : Frame} {original : Reductions}
    {simple : Evaluation} {offset successor : Nat} {instruction : Instruction}
    (h : context.Ruled pool decision sideEffects entry original simple)
    (havoids : instruction.usesSubroutine = false)
    (hi : decision.evaluation.instruction? offset = some instruction)
    (hl : decision.evaluation.Leads offset successor) :
    (∃ targets, instruction.branchTargets offset = .ok targets ∧ successor ∈ targets ∧
      (instruction.flow = .conditional ∨ instruction.flow = .unconditional ∨
        instruction.flow = .switch)) ∨
      instruction.fallsThrough = true ∧ successor = decision.evaluation.nextOffset offset := by
  obtain ⟨frame, instruction', step, -, hi', he, hs, -⟩ := h.recounted.took hl
  cases hi.symm.trans hi'
  exact Context.mem_successors he havoids hs

namespace MethodContext.Carried

variable {context : MethodContext} {pool pool' : ConstantPool} {decision : Decision}
  {sideEffects : IndexSet} {entry : Frame} {original : Reductions} {simple : Evaluation}
  {repair : RepairState} {live : IndexSet} {bytes : List UInt8} {listing : Listing}
  {handlers : List Handler} {heights : Array (Option Nat)} {placed : List (Nat × Nat)}
  {offset successor : Nat}
  (h : context.Carried pool pool' decision sideEffects entry original simple repair live)
  (havoids : decision.evaluation.listing.avoidsSubroutines = true)
  (hlisting : Listing.ofCode bytes = .ok listing)
  (hclosed : HeightsClosed listing pool' handlers heights)
  (hlays : repair.edit.Lays decision.evaluation.instructions listing.instructions placed
    listing.size)

include h in
theorem wellFormed_of_mem_emission {emitted : Nat × Instruction}
    (hmem : emitted ∈ repair.edit.emission decision.evaluation.instructions) :
    emitted.2.WellFormed := by
  obtain ⟨instruction, hin, hemitted⟩ := Edit.mem_emission.mp hmem
  obtain ⟨_, _, _, -, -, -, hemits, -⟩ := h.repaired emitted.1 instruction
    ((Listing.get?_eq_some_iff h.recounted.listing).mpr hin)
  exact hemits.wellFormed (wellFormed_of_decodeAll (Listing.ofCode_eq_ok h.recounted.listing).1
    (emitted.1, instruction) hin) hemitted

include h hclosed hlays in
/-- Control gets to where the new code is entered: at its start and at live handlers. -/
theorem arrives_of_mem_liveTargets
    (hkeeps : repair.edit.KeepsHandlers decision.evaluation.listing context.code.handlers handlers
      placed listing.size)
    (hremoved : ∀ index ∈ repair.edit.removedHandlers,
      decision.marks.liveHandlers[index]? = some false)
    (haligned : ∀ handler ∈ context.code.handlers,
      handler.isAligned decision.evaluation.listing = true)
    (ho : offset ∈ 0 :: (context.subject pool decision.evaluation sideEffects).liveTargets
      decision.marks.liveHandlers)
    (ht : decision.evaluation.isTraced offset = true) :
    Arrives heights listing.size (moved placed listing.size offset) := by
  rcases List.mem_cons.mp ho with rfl | ho
  · rw [hlays.start]
    rcases Nat.eq_zero_or_pos listing.size with hzero | hpos
    · exact .inl hzero.symm
    · exact .inr ⟨0, hclosed.entry hpos⟩
  · refine (h.exists_handler_of_live hlays hkeeps hremoved haligned ho ht).imp_right ?_
    rintro ⟨handler, hmem, htarget⟩
    exact ⟨1, htarget ▸ hclosed.handlers handler hmem⟩

include h havoids hlisting hclosed

/-- Control gets along an edge of the evaluation if the instruction is emitted as it is. -/
theorem arrives_of_stays {instruction : Instruction} {rest : List Instruction}
    (hpiece : Edit.Laid placed listing.size listing.instructions (moved placed listing.size offset)
      ((instruction :: rest).map (offset, ·))
      (moved placed listing.size (decision.evaluation.nextOffset offset)))
    (hi : decision.evaluation.instruction? offset = some instruction)
    (hrest : ∀ emitted ∈ rest, emitted.fallsThrough = true)
    (hl : decision.evaluation.Leads offset successor)
    (harrives : Arrives heights listing.size (moved placed listing.size offset)) :
    Arrives heights listing.size (moved placed listing.size successor) := by
  rcases h.leads_cases (Listing.usesSubroutine_eq_false h.recounted.listing havoids hi) hi hl with
    ⟨targets, htargets, hmem, -⟩ | ⟨hfalls, rfl⟩
  · obtain ⟨displacement, hd, hresolved⟩ := (mem_of_mapM htargets).2 _ hmem
    exact hpiece.arrives_branch hlisting hclosed harrives hd (Edit.target_eq_ok hresolved)
  · exact hpiece.arrives_end hlisting hclosed harrives (List.forall_mem_cons.mpr ⟨hfalls, hrest⟩)

include hlays

/-- **An edge of the evaluation leads the search along**: if control gets to what is emitted for an
instruction, it gets to where its successors have moved to. -/
theorem arrives_of_leads (hr : decision.marks.reachable.contains offset = true)
    (hl : decision.evaluation.Leads offset successor)
    (harrives : Arrives heights listing.size (moved placed listing.size offset)) :
    Arrives heights listing.size (moved placed listing.size successor) := by
  obtain ⟨before, instruction, step, -, hs⟩ := h.settled hr
  have hi := hs.listed
  have hpiece := hlays.piece offset instruction
    ((Listing.get?_eq_some_iff h.recounted.listing).mp hi)
  rw [← Listing.nextOffset_of_get? hi] at hpiece
  obtain ⟨old, new, keeps, -, -, -, hemits, -⟩ := h.repaired offset instruction hi
  generalize (repair.edit.site offset).emitted instruction = code at hemits hpiece
  have hend (hfalls : ∀ emitted ∈ code, emitted.fallsThrough = true) :
      Arrives heights listing.size
        (moved placed listing.size (decision.evaluation.nextOffset offset)) :=
    hpiece.arrives_end hlisting hclosed harrives hfalls
  have hnext (hflow : instruction.flow = .sequential) :
      successor = decision.evaluation.nextOffset offset :=
    h.recounted.eq_nextOffset_of_leads hi hflow hl
  have hreduced {reduction : Reduction} (hreduction : decision.reductions[offset]? =
      some (some reduction)) (hne : some reduction ≠ some .loop) :=
    h.eq_of_reduced hl (h.marked.loops.eq_of_ne_loop hreduction hne)
  cases hemits with
  | unreachable hr' => exact absurd (hr'.symm.trans hr) Bool.false_ne_true
  | keptPop _ hshuffle =>
    have hflow := Instruction.flow_of_isShuffle hshuffle
    rw [hnext hflow]
    refine hend fun emitted hmem => ?_
    exact List.mem_singleton.mp hmem ▸ Instruction.fallsThrough_of_sequential hflow
  | shuffle _ hshuffle =>
    rw [hnext (Instruction.flow_of_isShuffle hshuffle)]
    refine hend fun emitted hmem => ?_
    obtain ⟨move, -, rfl⟩ := List.mem_map.mp hmem
    exact Instruction.fallsThrough_ofShuffle move
  | stays | keeps =>
    exact h.arrives_of_stays havoids hlisting hclosed hpiece hi (by simp) hl harrives
  | discards =>
    refine h.arrives_of_stays havoids hlisting hclosed hpiece hi (fun emitted hmem => ?_) hl
      harrives
    obtain rfl := List.mem_singleton.mp hmem
    exact Instruction.fallsThrough_popOf _
  | call _ _ _ hcall =>
    exact absurd hcall (Instruction.operation_ne_subroutine
      (Listing.usesSubroutine_eq_false h.recounted.listing havoids hi))
  | constant hhandles _ hp hv =>
    rcases hreduced hhandles.reduction nofun with hgoto | ⟨rfl, -⟩
    · cases hgoto
    refine hend fun emitted hmem => ?_
    rcases List.mem_append.mp hmem with hmem | hmem
    · exact Decision.fallsThrough_of_mem_inputPops hp hmem
    · exact List.mem_singleton.mp hmem ▸
        Instruction.fallsThrough_of_sequential (gives_of_constantPush hv).flow_eq
  | «alias» hhandles =>
    rcases hreduced hhandles.reduction nofun with hgoto | ⟨rfl, -⟩
    · cases hgoto
    refine hend fun emitted hmem => ?_
    exact List.mem_singleton.mp hmem ▸
      Instruction.fallsThrough_of_sequential (Instruction.flow_load _ _)
  | drop hhandles _ hp =>
    rcases hreduced hhandles.reduction nofun with hgoto | ⟨rfl, -⟩
    · cases hgoto
    exact hend fun emitted hmem => Decision.fallsThrough_of_mem_inputPops hp hmem
  | @goto effect target pops displacement hhandles _ hp hd =>
    rcases hreduced hhandles.reduction nofun with hgoto | ⟨-, hne⟩
    · cases hgoto
      rw [List.map_append, Edit.Laid.append_iff] at hpiece
      obtain ⟨middle, hpops, hjump⟩ := hpiece
      exact hjump.arrives_branch hlisting hclosed
        (hpops.arrives_end hlisting hclosed harrives fun emitted hemitted =>
          Decision.fallsThrough_of_mem_inputPops hp hemitted)
        (List.mem_singleton_self displacement) (toInt_of_displacementTo hd)
    · exact absurd rfl (hne target)
  | loop hhandles =>
    rw [h.moved_eq_of_loop hlays hr hhandles.reduction hl]
    exact harrives
  | unnecessary _ hn _ hplaceholder hp =>
    have hbranches : successor = decision.evaluation.nextOffset offset ∨
        instruction.flow = .conditional ∨ instruction.flow = .unconditional ∨
        instruction.flow = .switch := by
      rcases h.leads_cases (Listing.usesSubroutine_eq_false h.recounted.listing havoids hi) hi hl with
        ⟨_, -, -, hflow⟩ | ⟨-, hsame⟩
      · exact .inr hflow
      · exact .inl hsame
    rcases h.moved_eq_of_unnecessary hlays hr hn hi hbranches hl with hmoved | hmoved
    · rw [hmoved]
      exact hend fun emitted hmem =>
        Decision.fallsThrough_of_unnecessary hplaceholder hp hmem
    · rw [hmoved]
      exact harrives

/-- Control gets to what is emitted for every reachable instruction, if it gets to what is emitted at
the entry and at live handlers. -/
theorem arrives_of_entered
    (hstart : ∀ o ∈ 0 :: (context.subject pool decision.evaluation sideEffects).liveTargets
      decision.marks.liveHandlers, decision.evaluation.isTraced o = true →
        Arrives heights listing.size (moved placed listing.size o))
    (hentered : (context.subject pool decision.evaluation sideEffects).Entered
      decision.marks.liveHandlers offset) :
    decision.marks.reachable.contains offset = true ∧
      Arrives heights listing.size (moved placed listing.size offset) := by
  induction hentered with
  | start ho ht => exact ⟨h.marked.entry _ ho ht, hstart _ ho ht⟩
  | step _ hl _ ih =>
    exact ⟨h.reachable_of_leads ih.1 hl,
      h.arrives_of_leads havoids hlisting hclosed hlays ih.1 hl ih.2⟩

/-- Control gets to every instruction of the new code. -/
theorem exists_height
    (hstart : ∀ o ∈ 0 :: (context.subject pool decision.evaluation sideEffects).liveTargets
      decision.marks.liveHandlers, decision.evaluation.isTraced o = true →
        Arrives heights listing.size (moved placed listing.size o))
    {entry : Nat × Instruction} (hmem : entry ∈ listing.instructions) :
    ∃ height, heights[entry.1]?.join = some height := by
  have hlt : entry.1 < listing.size := by
    rw [Listing.size_of_ofCode hlisting]
    exact lt_of_decodeAll (Listing.ofCode_eq_ok hlisting).1 entry hmem
  obtain ⟨offset, instruction, hin, hge, hinside⟩ :=
    hlays.exists_piece (Listing.ofCode_eq_ok h.recounted.listing).1 hlt
  have hpiece := hlays.piece offset instruction hin
  obtain ⟨old, new, keeps, -, -, -, hemits, -⟩ := h.repaired offset instruction
    ((Listing.get?_eq_some_iff h.recounted.listing).mpr hin)
  have hne : (repair.edit.site offset).emitted instruction ≠ [] := by
    intro hnil
    rw [hnil, List.map_nil] at hpiece
    have := hpiece.unique (.nil _)
    omega
  obtain ⟨-, harrives⟩ := h.arrives_of_entered havoids hlisting hclosed hlays hstart
    (h.marked.entered offset (hemits.reachable_of_ne_nil hne))
  exact hpiece.exists_height hlisting hclosed harrives
    (fun emitted => hemits.fallsThrough_of_mem_dropLast) hmem hge hinside

end MethodContext.Carried

/-- **Simplified code is reachable.** Where a body calls no subroutines and its handlers protect
whole instructions, the heights of the simplified body can be computed, and every instruction of it
has one. -/
theorem MethodContext.stackHeights_simplify {context : MethodContext} {pool pool' : ConstantPool}
    {listing : Listing} {simplified : Code} {report : Report}
    (hlisting : Listing.ofCode context.code.bytes = .ok listing)
    (havoids : listing.avoidsSubroutines = true)
    (haligned : ∀ handler ∈ context.code.handlers, handler.isAligned listing = true)
    (hsize : context.code.bytes.length ≤ UInt32.size)
    (hsimplify : context.simplify.apply pool = (.ok (some (simplified, report)), pool'))
    (hsmall : simplified.size < 2 ^ 31) :
    ∃ heights body', stackHeights simplified pool' = .ok heights ∧
      decodeAll simplified.bytes = .ok body' ∧
      ∀ entry ∈ body', ∃ height, heights[entry.1]? = some (some height) := by
  obtain ⟨decision, repair, hdecide, hrepairs, happly⟩ := simplify_eq_some hsimplify
  obtain ⟨sideEffects, entry, original, simple, hruled, -⟩ := ruled_of_decide hdecide hsize
  cases hlisting.symm.trans hruled.recounted.listing
  obtain ⟨-, hrepaired, hkept⟩ := Decision.repaired_of_repairAll hlisting hrepairs
  obtain ⟨live, hlive, -⟩ := hruled.marked.straddles
  have h : context.Carried pool pool' decision sideEffects entry original simple repair live :=
    ⟨hruled, hlive, hrepaired, hkept⟩
  obtain ⟨body', placed, hbody', -, hlays, hkeeps⟩ := Edit.settled_of_apply happly hsmall hlisting
    fun _ hmem => h.wellFormed_of_mem_emission hmem
  obtain ⟨_, _, _, happlies⟩ := Edit.applies_of_apply happly
  obtain ⟨heights, hheights⟩ := happlies.heights
  obtain ⟨listing', hlisting', hclosed⟩ := heightsClosed_of_stackHeights hheights
  obtain ⟨hbody'', -⟩ := Listing.ofCode_eq_ok hlisting'
  cases hbody'.symm.trans hbody''
  have hsame : listing'.size = simplified.size := Listing.size_of_ofCode hlisting'
  rw [← hsame] at hlays hkeeps
  refine ⟨heights, listing'.instructions, hheights, hbody'', fun entry hmem => ?_⟩
  obtain ⟨height, hheight⟩ := h.exists_height havoids hlisting' hclosed hlays
    (fun _ ho ht => h.arrives_of_mem_liveTargets hclosed hlays hkeeps
      (Decision.removed_of_repairAll hrepairs) haligned ho ht) hmem
  exact ⟨height, Option.join_eq_some_iff.mp hheight⟩

/-- A division of a constant under a handler whose range starts at an offset. -/
def guardedFrom (start : Nat) : MethodContext where
  around := ⟨.empty, .standard, .empty⟩
  assumptions := .none
  owner := "Quotients"
  method := ⟨AccessFlags.static, "check", "(I)V", none⟩
  code := ⟨2, 1, [0x00, 0x10, 7, 0x1A, 0x6C, 0x57, 0xB1, 0x57, 0xB1], [⟨start, 6, 7, 0⟩], [], []⟩

/-- The range starts at the constant: the handler stays with the division, and all code is
reachable. -/
theorem stackHeights_simplify_guarded : ∃ simplified report pool',
    (guardedFrom 1).simplify.apply ⟨#[]⟩ = (.ok (some (simplified, report)), pool') ∧
      simplified.bytes = [0x10, 7, 0x1A, 0x6C, 0x57, 0xB1, 0x57, 0xB1] ∧
      simplified.handlers = [⟨0, 5, 6, 0⟩] ∧
      ∃ heights body', stackHeights simplified pool' = .ok heights ∧
        decodeAll simplified.bytes = .ok body' ∧
        ∀ entry ∈ body', ∃ height, heights[entry.1]? = some (some height) := by
  obtain ⟨listing, hlisting⟩ := Except.exists_ok
    (by decide +kernel : (Listing.ofCode (guardedFrom 1).code.bytes).isOk = true)
  have hlistingChecks : (Listing.ofCode (guardedFrom 1).code.bytes).toOption.all (fun listing =>
      listing.avoidsSubroutines &&
        (guardedFrom 1).code.handlers.all (·.isAligned listing)) = true := by
    decide +kernel
  simp only [hlisting, Except.toOption, Option.all_some, Bool.and_eq_true, List.all_eq_true]
    at hlistingChecks
  have hchecks : ((guardedFrom 1).simplify.apply ⟨#[]⟩).1.toOption.any (fun result =>
      result.any fun simplified =>
        decide (simplified.1.bytes = [0x10, 7, 0x1A, 0x6C, 0x57, 0xB1, 0x57, 0xB1]) &&
          decide (simplified.1.handlers = [⟨0, 5, 6, 0⟩])) = true := by
    decide +kernel
  generalize hsimplify : (guardedFrom 1).simplify.apply ⟨#[]⟩ = answer at hchecks
  obtain ⟨failure | _ | ⟨simplified, report⟩, pool'⟩ := answer
  · cases hchecks
  · cases hchecks
  · obtain ⟨hbytes, hhandlers⟩ :
        simplified.bytes = [0x10, 7, 0x1A, 0x6C, 0x57, 0xB1, 0x57, 0xB1] ∧
          simplified.handlers = [⟨0, 5, 6, 0⟩] := by
      simpa [Except.toOption] using hchecks
    refine ⟨simplified, report, pool', rfl, hbytes, hhandlers, ?_⟩
    refine MethodContext.stackHeights_simplify hlisting hlistingChecks.1 hlistingChecks.2
      (by decide) hsimplify ?_
    rw [Code.size, hbytes]
    decide

/-- The range starts inside the constant: the table loses the handler, but its code stays and is not
reachable. -/
theorem stackHeights_simplify_misaligned :
    ∃ listing evaluation simplified report pool' heights body',
      Listing.ofCode (guardedFrom 2).code.bytes = .ok listing ∧ listing.avoidsSubroutines = true ∧
      evaluate (guardedFrom 2).preciseOptions ⟨#[]⟩ (guardedFrom 2).owner (guardedFrom 2).method
        (guardedFrom 2).code = .ok evaluation ∧
      (guardedFrom 2).simplify.apply ⟨#[]⟩ = (.ok (some (simplified, report)), pool') ∧
      stackHeights simplified pool' = .ok heights ∧ decodeAll simplified.bytes = .ok body' ∧
      ∃ entry ∈ body', heights[entry.1]? = some none := by
  obtain ⟨listing, hlisting⟩ := Except.exists_ok
    (by decide +kernel : (Listing.ofCode (guardedFrom 2).code.bytes).isOk = true)
  have havoids : (Listing.ofCode (guardedFrom 2).code.bytes).toOption.all
      Listing.avoidsSubroutines = true := by
    decide +kernel
  simp only [hlisting, Except.toOption, Option.all_some] at havoids
  obtain ⟨evaluation, hevaluate⟩ := Except.exists_ok (by decide +kernel :
    (evaluate (guardedFrom 2).preciseOptions ⟨#[]⟩ (guardedFrom 2).owner (guardedFrom 2).method
      (guardedFrom 2).code).isOk = true)
  obtain ⟨⟨simplified, report⟩, pool', hsimplify, hchecks⟩ := Except.exists_ok_some_of_any
    (x := (guardedFrom 2).simplify.apply ⟨#[]⟩)
    (p := fun made pool' => (stackHeights made.1 pool').toOption.any fun heights =>
      (decodeAll made.1.bytes).toOption.any fun body =>
        body.any fun entry => decide (heights[entry.1]? = some none))
    (by decide +kernel)
  obtain ⟨heights, hheights, hchecks⟩ := Except.exists_ok_of_any hchecks
  obtain ⟨body, hbody, hchecks⟩ := Except.exists_ok_of_any hchecks
  obtain ⟨entry, hentry, hnone⟩ := List.any_eq_true.mp hchecks
  exact ⟨listing, evaluation, simplified, report, pool', heights, body, hlisting, havoids,
    hevaluate, hsimplify, hheights, hbody, entry, hentry, of_decide_eq_true hnone⟩

end JvmTrim
