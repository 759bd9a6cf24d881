import JvmTrim.Proofs.Retention
import JvmTrim.Proofs.Tables

/-!
# The handlers of edited code

The exception table of a body moves along with its code. An entry survives if it is not removed, if
it protects whole instructions, and if something is emitted for one of them. A live handler protects
a necessary instruction, for which something is emitted; so the table loses a live handler only if an
end of its range is inside an instruction, or if no code is left from its start on.

## Main definitions

* `Handler.isAligned`: handlers that protect whole instructions
* `Edit.KeepsHandlers`: handlers that are left in an edited body

## Main results

* `Edit.settled_of_apply`: the positions of an edited body and its handlers
* `MethodContext.Carried.moved_lt_of_live`: a live handler protects some new code
* `MethodContext.Carried.exists_handler_of_live`: a live handler is left
-/

namespace JvmTrim

/-- Whether a handler protects whole instructions. An offset beyond the end counts as the end. -/
def Handler.isAligned (listing : Listing) (handler : Handler) : Bool :=
  listing.isEdge (min handler.start listing.size) && listing.isEdge (min handler.stop listing.size)

theorem mem_withoutIndices {α : Type} {removed : List Nat} {list : List α} {index : Nat} {a : α}
    (h : list[index]? = some a) (hnot : index ∉ removed) : a ∈ withoutIndices removed list := by
  refine List.mem_map.mpr ⟨(a, index), List.mem_filter.mpr ⟨?_, ?_⟩, rfl⟩
  · exact List.mk_mem_zipIdx_iff_getElem?.mpr h
  · simpa using hnot

theorem Listing.isEdge_of_isBoundary {listing : Listing} {offset : Nat}
    (h : listing.isBoundary offset = true) : listing.isEdge offset = true := by
  rw [isEdge, h, Bool.or_true]

/-- A handler that protects some new code survives if its own code is left. -/
theorem Placement.Follows.survives {placement : Placement} {listing : Listing}
    {emitted : List (Nat × Instruction)} {placed : List (Nat × Nat)} {size : Nat}
    (h : placement.Follows listing emitted placed size) {handler : Handler}
    (haligned : handler.isAligned listing = true)
    (htarget : listing.isTableEdge handler.target = true)
    (hlt : firstAtOrBehind placed size handler.start < firstAtOrBehind placed size handler.stop)
    (hleft : firstAtOrBehind placed size handler.target < size) :
    handler.survives listing emitted = true := by
  have hrange : emitted.any (handler.covers ·.1) = true :=
    (h.any_range_iff handler.start handler.stop).2 hlt
  have hbehind := (h.any_le_iff handler.target).2 hleft
  obtain ⟨hstart, hstop⟩ := Bool.and_eq_true_iff.mp haligned
  simp only [Handler.survives, Listing.isTableEdge, hstart, hstop, hrange, hbehind, Bool.and_true]
  exact htarget

namespace Edit

/-- Whether handlers that are not removed are in the table of an edited body. Of these, handlers are
left that protect whole instructions and some new code, unless no code is left from their targets
on. -/
def KeepsHandlers (edit : Edit) (listing : Listing) (handlers handlers' : List Handler)
    (placed : List (Nat × Nat)) (size : Nat) : Prop :=
  ∀ (index : Nat) (handler : Handler), handlers[index]? = some handler →
    index ∉ edit.removedHandlers → handler.isAligned listing = true →
    listing.isBoundary handler.target = true →
    moved placed size (min handler.start listing.size) <
      moved placed size (min handler.stop listing.size) →
    moved placed size handler.target < size →
    ∃ handler' ∈ handlers', handler'.target = moved placed size handler.target

/-- **The positions of an edited body and its handlers.** -/
theorem settled_of_apply {edit : Edit} {code edited : Code} {pool : ConstantPool}
    {listing : Listing} (h : edit.apply code pool = .ok edited) (hsize : edited.size < 2 ^ 31)
    (hlisting : Listing.ofCode code.bytes = .ok listing)
    (hw : ∀ entry ∈ edit.emission listing.instructions, entry.2.WellFormed) :
    ∃ body placed, decodeAll edited.bytes = .ok body ∧
      placed = ((edit.emission listing.instructions).map (·.1)).zip (body.map (·.1)) ∧
      edit.Lays listing.instructions body placed edited.size ∧
      edit.KeepsHandlers listing code.handlers edited.handlers placed edited.size := by
  have hd := (Listing.ofCode_eq_ok hlisting).1
  obtain ⟨listing', groups, placement, happlies⟩ := applies_of_apply h
  cases hlisting.symm.trans happlies.reads
  obtain ⟨settled, relocated, hr⟩ := happlies.relocates
  have hf := hr.follows hlisting
  have hstands := happlies.stands hr hsize
  obtain ⟨body, hbody, hlays⟩ := lays_of_stands hd (hr.wellFormed hw) hr.encodes hstands
  refine ⟨body, edit.placed listing.instructions relocated, hbody, ?_, hlays,
    fun index handler hhandler hremoved haligned hb hlt hleft => ?_⟩
  · have hlength := hstands.length_eq
    rw [List.length_zip, length_offsetsFrom, List.length_map] at hlength
    cases hbody.symm.trans (decodeAll_encodeFrom (hr.wellFormed hw) hr.encodes)
    exact (zip_map_fst_zip (by rw [List.length_map, List.length_map]; omega)).symm
  have htarget : listing.isTableEdge handler.target = true := by
    obtain ⟨instruction, hin⟩ := (Listing.isBoundary_iff hlisting).mp hb
    have hinside : handler.target < listing.size := by
      rw [Listing.size_of_ofCode hlisting]
      exact lt_of_decodeAll hd _ hin
    rw [Listing.isTableEdge, Nat.min_eq_left (Nat.le_of_lt hinside)]
    exact Listing.isEdge_of_isBoundary hb
  rw [moved, moved, hf.firstAtOrBehind_min, hf.firstAtOrBehind_min] at hlt
  refine ⟨handler.moved (edit.placed listing.instructions relocated) edited.size, ?_, rfl⟩
  rw [eq_of_filterMapE happlies.handlers fun _ _ => hf.moveHandler_eq]
  exact List.mem_map_of_mem (List.mem_filter.mpr
    ⟨mem_withoutIndices hhandler hremoved, hf.survives haligned htarget hlt hleft⟩)

end Edit

namespace MethodContext.Carried

variable {context : MethodContext} {pool pool' : ConstantPool} {decision : Decision}
  {sideEffects : IndexSet} {entry : Frame} {original : Reductions} {simple : Evaluation}
  {repair : RepairState} {live : IndexSet} {body : List (Nat × Instruction)}
  {placed : List (Nat × Nat)} {size : Nat}
  (h : context.Carried pool pool' decision sideEffects entry original simple repair live)

include h

/-- **A live handler protects some new code.** -/
theorem moved_lt_of_live
    (hlays : repair.edit.Lays decision.evaluation.instructions body placed size) {index : Nat}
    {handler : Handler} (hhandler : context.code.handlers[index]? = some handler)
    (hlive : decision.marks.liveHandlers[index]? = some true)
    (haligned : handler.isAligned decision.evaluation.listing = true) :
    Edit.moved placed size (min handler.start decision.evaluation.listing.size) <
      Edit.moved placed size (min handler.stop decision.evaluation.listing.size) := by
  have hlisting := h.recounted.listing
  obtain ⟨offset, hge, hlt, hn⟩ := h.marked.protects_of_live hhandler hlive
  obtain ⟨hr, instruction, hi, -, -⟩ := h.remains_of_necessary hn
  have hmem := (Listing.get?_eq_some_iff hlisting).mp hi
  have hbelow : offset < decision.evaluation.listing.size := by
    rw [Listing.size_of_ofCode hlisting]
    exact lt_of_decodeAll (Listing.ofCode_eq_ok hlisting).1 _ hmem
  calc Edit.moved placed size (min handler.start decision.evaluation.listing.size)
      ≤ Edit.moved placed size offset := hlays.ascends _ _ (by omega)
    _ < Edit.moved placed size (offset + instruction.length offset) :=
        (hlays.piece offset instruction hmem).lt_of_ne_nil
          (by simpa using h.emitted_ne_nil hi hn)
    _ ≤ Edit.moved placed size (min handler.stop decision.evaluation.listing.size) := ?_
  have hstop := (Bool.and_eq_true_iff.mp haligned).2
  rw [Listing.isEdge, Bool.or_eq_true, decide_eq_true_eq] at hstop
  rcases hstop with hend | hboundary
  · rcases Nat.le_total (offset + instruction.length offset) decision.evaluation.listing.size with
      hle | hle
    · exact hlays.ascends _ _ (hend.symm ▸ hle)
    · refine Nat.le_of_eq (hlays.moved_eq (hend.symm ▸ hle) fun o i hm hge' _ => ?_).symm
      have := lt_of_decodeAll (Listing.ofCode_eq_ok hlisting).1 _ hm
      have := Listing.size_of_ofCode hlisting
      omega
  · refine hlays.ascends _ _ ?_
    rw [← Listing.nextOffset_of_get? hi]
    exact Listing.nextOffset_le hlisting (Option.isSome_of_eq_some hi)
      hboundary (by omega)

/-- **A live handler is left**, if its code is. -/
theorem exists_handler_of_live
    (hlays : repair.edit.Lays decision.evaluation.instructions body placed size)
    {handlers : List Handler} (hkeeps : repair.edit.KeepsHandlers decision.evaluation.listing
      context.code.handlers handlers placed size)
    (hremoved : ∀ index ∈ repair.edit.removedHandlers,
      decision.marks.liveHandlers[index]? = some false)
    (haligned : ∀ handler ∈ context.code.handlers,
      handler.isAligned decision.evaluation.listing = true) {target : Nat}
    (hlive : target ∈ (context.subject pool decision.evaluation sideEffects).liveTargets
      decision.marks.liveHandlers)
    (htraced : decision.evaluation.isTraced target = true) :
    Edit.moved placed size target = size ∨
      ∃ handler ∈ handlers, handler.target = Edit.moved placed size target := by
  obtain ⟨index, handler, hhandler, hflag, rfl⟩ := Subject.exists_of_mem_liveTargets hlive
  have haligned := haligned handler (List.mem_of_getElem? hhandler)
  obtain ⟨before, hbefore⟩ := Option.isSome_iff_exists.mp (h.recounted.closed.traced _ htraced)
  obtain ⟨_, _, hsettled⟩ := h.recounted.closed.settled _ _ hbefore
  rcases Nat.eq_or_lt_of_le
      (hlays.moved_le (Listing.ofCode_eq_ok h.recounted.listing).1 handler.target) with hend | hlt
  · exact .inl hend
  · refine .inr (hkeeps index handler hhandler (fun hmem => ?_) haligned
      (Option.isSome_of_eq_some hsettled.listed)
      (h.moved_lt_of_live hlays hhandler hflag haligned) hlt)
    cases (hremoved index hmem).symm.trans hflag

end MethodContext.Carried

end JvmTrim
