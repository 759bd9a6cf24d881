import JvmTrim.Proofs.Arising
import JvmTrim.Proofs.Exits
import JvmTrim.Proofs.Tracing
import Mathlib.Algebra.Order.BigOperators.Group.List
import Mathlib.Algebra.Order.Ring.Nat

/-!
# The iteration of an evaluation ends without faults

Everything that an evaluation keeps by offset has room for every offset of the body, and an offset
becomes pending only if an instruction starts there. A visit counts for its offset, up to a limit,
so the number of all visits is limited too, and the bound of the iteration is larger.

A subroutine that is called is noted before it is known that its entry is an instruction; the same
visit fails if it is none.

## Main definitions

* `Evaluation.Sized`: a record with room for every offset
* `Progress.Fits`: what makes the next visits safe

## Main results

* `yields_evaluate`: an evaluation does not fault
* `sized_of_evaluate`: what an evaluation records has room for every offset
-/

namespace JvmTrim

namespace Evaluation

/-- Whether what is recorded by offset has room for every offset of the body. -/
structure Sized (evaluation : Evaluation) : Prop where
  sites : evaluation.sites.size = evaluation.size
  traced : evaluation.traced.capacity = evaluation.size
  returning : evaluation.returning.capacity = evaluation.size

/-- Whether two records differ in the contents of their sites only. -/
structure SameOutline (old new : Evaluation) : Prop where
  listing : new.listing = old.listing
  sites : new.sites.size = old.sites.size
  traced : new.traced = old.traced
  returning : new.returning = old.returning
  returnPoints : new.returnPoints = old.returnPoints

theorem SameOutline.refl (evaluation : Evaluation) : evaluation.SameOutline evaluation :=
  ⟨rfl, rfl, rfl, rfl, rfl⟩

theorem SameOutline.trans {a b c : Evaluation} (hab : a.SameOutline b) (hbc : b.SameOutline c) :
    a.SameOutline c where
  listing := hbc.listing.trans hab.listing
  sites := hbc.sites.trans hab.sites
  traced := hbc.traced.trans hab.traced
  returning := hbc.returning.trans hab.returning
  returnPoints := hbc.returnPoints.trans hab.returnPoints

theorem SameOutline.sized {old new : Evaluation} (h : old.SameOutline new) (hs : old.Sized) :
    new.Sized := by
  have hsize : new.size = old.size := by rw [size, h.listing, size]
  exact ⟨by rw [h.sites, hs.sites, hsize], by rw [h.traced, hs.traced, hsize],
    by rw [h.returning, hs.returning, hsize]⟩

/-- Changing a site inside the body. -/
theorem yields_modifySite {evaluation : Evaluation} {offset : Nat} (change : Site → Site)
    (h : offset < evaluation.sites.size) :
    Yields (evaluation.modifySite offset change) evaluation.SameOutline := by
  rw [modifySite, if_pos h]
  exact .ok ⟨rfl, by simp, rfl, rfl, rfl⟩

end Evaluation

theorem IndexSet.yields_add {set : IndexSet} {index : Nat} (h : index < set.capacity) :
    Yields (set.add index) fun set' => set'.capacity = set.capacity ∧
      ∀ i, set'.contains i = (decide (i = index) || set.contains i) := by
  refine Faultless.yields ?_ fun set' hadd => (add_eq_ok hadd).2
  rw [add, insert, dif_pos h]
  exact .ok _

namespace Listing

/-- Whether every instruction of a listing was read inside the code that it is a listing of. -/
structure Read (listing : Listing) : Prop where
  lt_size : ∀ offset, (listing.get? offset).isSome = true → offset < listing.size
  wellFormed : ∀ offset instruction, listing.get? offset = some instruction →
    instruction.WellFormed

theorem read_of_ofCode {code : List UInt8} {listing : Listing} (h : ofCode code = .ok listing) :
    listing.Read := by
  have hdecode := (ofCode_eq_ok h).1
  refine ⟨fun offset ho => ?_, fun offset instruction hi => ?_⟩
  · obtain ⟨instruction, hi⟩ := Option.isSome_iff_exists.mp ho
    rw [size_of_ofCode h]
    exact lt_of_decodeAll hdecode _ ((get?_eq_some_iff h).mp hi)
  · exact wellFormed_of_decodeAll hdecode (offset, instruction) ((get?_eq_some_iff h).mp hi)

end Listing

namespace Progress

/-- What happens to the state of the iteration while frames are passed on: frames and edges are
recorded, and offsets with a site become pending. -/
structure PassesOn (old new : Progress) : Prop where
  outline : old.evaluation.SameOutline new.evaluation
  visits : new.visits = old.visits
  pending : ∀ offset ∈ new.pending.elements, offset ∈ old.pending.elements ∨
    offset < old.evaluation.sites.size

theorem PassesOn.refl (progress : Progress) : PassesOn progress progress :=
  ⟨.refl _, rfl, fun _ => .inl⟩

theorem PassesOn.trans {a b c : Progress} (hab : PassesOn a b) (hbc : PassesOn b c) :
    PassesOn a c where
  outline := hab.outline.trans hbc.outline
  visits := hbc.visits.trans hab.visits
  pending offset ho := by
    rcases hbc.pending offset ho with hb | hlt
    · exact hab.pending offset hb
    · exact .inr (hab.outline.sites ▸ hlt)

theorem ordinary_joinAt (offset : Nat) (old new : Frame) : Ordinary (old.joinAt offset new) := by
  unfold Frame.joinAt
  split
  · exact .ok _
  · exact .defect _

variable {options : EvaluationOptions} {pool : ConstantPool} {method : Method}
  {handlers : List Handler} {offset : Nat} {progress progress' : Progress}

theorem yields_merge (frame : Frame) (hlt : offset < progress.evaluation.sites.size) :
    Yields (progress.merge offset frame) (PassesOn progress) := by
  have hset (frame : Frame) : Yields (do
      let evaluation ← progress.evaluation.modifySite offset fun site =>
        { site with before := some frame }
      return { progress with evaluation, pending := progress.pending.insert offset })
      (PassesOn progress) := by
    refine (Evaluation.yields_modifySite _ hlt).bind fun evaluation houtline => .pure ?_
    refine ⟨houtline, rfl, fun o ho => ?_⟩
    rcases mem_insert_offset.mp ho with rfl | ho
    · exact .inr hlt
    · exact .inl ho
  unfold merge
  split
  · refine ((ordinary_joinAt offset _ frame).faultless.yields fun _ _ => trivial).bind
      fun joined _ => ?_
    exact .ite (fun _ => .pure (.refl _)) fun _ => hset joined
  · exact hset frame

/-- Whether the sites have room for every instruction. -/
def HasRoom (progress : Progress) : Prop :=
  ∀ o, (progress.evaluation.instruction? o).isSome = true → o < progress.evaluation.sites.size

theorem PassesOn.hasRoom (h : PassesOn progress progress') (hroom : progress.HasRoom) :
    progress'.HasRoom := by
  intro o ho
  rw [Evaluation.instruction?, h.outline.listing, ← Evaluation.instruction?] at ho
  rw [h.outline.sites]
  exact hroom o ho

theorem yields_enterHandlers (hroom : progress.HasRoom) (locals : Locals) :
    Yields (progress.enterHandlers options handlers offset locals) (PassesOn progress) := by
  refine Yields.foldlM (fun middle handler _ hmiddle => ?_) (.refl progress)
  refine .ite (fun _ => .ok hmiddle) fun _ => .ite (fun _ => .error rfl) fun hsome => ?_
  have hi : (middle.evaluation.instruction? handler.target).isSome = true := by
    simpa [Option.isSome_iff_ne_none] using hsome
  exact (yields_merge _ (hmiddle.hasRoom hroom _ hi)).mono fun last hlast => hmiddle.trans hlast

/-- Continuing at successors checks that every one of them is an instruction. -/
theorem yields_enterSuccessors (hroom : progress.HasRoom)
    (hlt : offset < progress.evaluation.sites.size) (successors : List Nat) (frame : Frame) :
    Yields (progress.enterSuccessors options successors offset frame) fun entered =>
      PassesOn progress entered ∧
        ∀ successor ∈ successors, (entered.evaluation.instruction? successor).isSome = true := by
  refine Yields.and ?_ fun entered hentered successor hs =>
    ((enterSuccessors_spec hentered).2 successor hs).1
  refine Yields.foldlM (fun middle successor _ hmiddle => ?_) (.refl progress)
  refine .ite (fun _ => .error rfl) fun hsome => .ite (fun _ => .ok hmiddle) fun _ => ?_
  have hi : (middle.evaluation.instruction? successor).isSome = true := by
    simpa [Option.isSome_iff_ne_none] using hsome
  have hsuccessor := hmiddle.hasRoom hroom successor hi
  refine (Evaluation.yields_modifySite _ (hmiddle.outline.sites ▸ hlt)).bind fun first hfirst => ?_
  refine (Evaluation.yields_modifySite _ (hfirst.sites ▸ hsuccessor)).bind fun second hsecond => ?_
  have houtline := hfirst.trans hsecond
  have hrecorded : PassesOn middle { middle with evaluation := second } :=
    ⟨houtline, rfl, fun _ => .inl⟩
  refine (yields_merge frame (houtline.sites ▸ hsuccessor)).mono fun last hlast => ?_
  exact hmiddle.trans (hrecorded.trans hlast)

/-- One more visit of an offset, within the limit. -/
structure Counts (limit : Nat) (old new : Progress) : Prop where
  evaluation : new.evaluation = old.evaluation
  pending : new.pending = old.pending
  size : new.visits.size = old.visits.size
  limited : (∀ n ∈ old.visits, n ≤ limit) → ∀ n ∈ new.visits, n ≤ limit
  sum : new.visits.toList.sum = old.visits.toList.sum + 1

theorem yields_count {limit : Nat} (hlt : offset < progress.visits.size) :
    Yields (progress.count offset limit) (Counts limit progress) := by
  have hvisits : progress.visits[offset]? = some progress.visits[offset] :=
    Array.getElem?_eq_getElem hlt
  unfold count
  rw [hvisits]
  refine .ite (fun _ => .error rfl) fun hle => .pure ⟨rfl, rfl, by simp, fun hall n hn => ?_, ?_⟩
  · rcases Array.mem_or_eq_of_mem_setIfInBounds hn with hold | rfl
    · exact hall n hold
    · omega
  · rw [Array.toList_setIfInBounds]
    have hlength : offset < progress.visits.toList.length := by simpa using hlt
    rw [List.sum_set, if_pos hlength]
    conv_rhs => rw [← List.sum_take_add_sum_drop progress.visits.toList offset,
      List.drop_eq_getElem_cons hlength, List.sum_cons]
    simp only [Array.getElem_toList]
    omega

end Progress

/-! ## One visit -/

namespace Evaluation

variable {evaluation : Evaluation} {offset : Nat} {method : Method}

/-- What noting an event does beside recording initializations. -/
structure Notes (event : Option Event) (old new : Evaluation) : Prop where
  listing : new.listing = old.listing
  sites : new.sites = old.sites
  traced : new.traced = old.traced
  returning : new.returning.capacity = old.returning.capacity
  entries : ∀ entry ∈ new.returnPoints.map (·.2), entry ∈ old.returnPoints.map (·.2) ∨
    ∃ back, event = some (.call entry back)

/-- Entries of subroutines inside the body can be noted to return. -/
theorem yields_note (event : Option Event)
    (hentries : ∀ entry ∈ evaluation.returnPoints.map (·.2),
      entry < evaluation.returning.capacity) :
    Yields (evaluation.note method offset event) (Notes event evaluation) := by
  unfold note
  split
  case h_1 => split <;> exact .ok ⟨rfl, rfl, rfl, rfl, fun _ => .inl⟩
  case h_2 => split <;> exact .ok ⟨rfl, rfl, rfl, rfl, fun _ => .inl⟩
  case h_3 target back =>
    refine .ok ⟨rfl, rfl, rfl, rfl, fun entry he => ?_⟩
    rcases mem_of_mem_assign he with rfl | hold
    · exact .inr ⟨back, rfl⟩
    · exact .inl hold
  case h_4 offsets =>
    refine Yields.foldlM (fun middle o _ hmiddle => ?_) ⟨rfl, rfl, rfl, rfl, fun _ => .inl⟩
    split
    · rename_i entry hlookup
      have hmem : entry ∈ evaluation.returnPoints.map (·.2) := by
        have hfound := List.mem_map_of_mem (f := Prod.snd) (mem_of_lookup_eq_some hlookup)
        exact (hmiddle.entries entry hfound).resolve_right (by simp)
      refine (IndexSet.yields_add (hmiddle.returning ▸ hentries entry hmem)).bind
        fun returning hreturning => .pure ?_
      exact ⟨hmiddle.listing, hmiddle.sites, hmiddle.traced,
        hreturning.1.trans hmiddle.returning, hmiddle.entries⟩
    · exact .pure hmiddle
  case h_5 => exact .ok ⟨rfl, rfl, rfl, rfl, fun _ => .inl⟩

end Evaluation

namespace Progress

variable {options : EvaluationOptions} {pool : ConstantPool} {method : Method}
  {handlers : List Handler} {offset : Nat} {progress progress' : Progress}

/-- What makes the next visits safe: there is room for every offset, visits are counted within the
limit, and pending offsets and entries of subroutines lie inside the body. -/
structure Fits (limit : Nat) (progress : Progress) : Prop where
  sized : progress.evaluation.Sized
  read : progress.evaluation.listing.Read
  visits : progress.visits.size = progress.evaluation.size
  limited : ∀ n ∈ progress.visits, n ≤ limit
  pending : ∀ o ∈ progress.pending.elements, o < progress.evaluation.size
  entries : ∀ entry ∈ progress.evaluation.returnPoints.map (·.2), entry < progress.evaluation.size

/-- **A visit does not fault**, and leaves a state from which the next ones do not either. -/
theorem yields_visit (hfits : progress.Fits options.maxVisits)
    (hlt : offset < progress.evaluation.size) :
    Yields (progress.visit options pool method handlers offset) fun next =>
      next.Fits options.maxVisits ∧ next.evaluation.listing = progress.evaluation.listing ∧
        next.visits.toList.sum = progress.visits.toList.sum + 1 := by
  refine (yields_count (hfits.visits ▸ hlt)).bind fun counted hcounted => ?_
  simp only [hcounted.evaluation]
  refine ((Faultless.orDefect _ _).yields fun _ => orDefect_eq_ok.mp).bind fun instruction hlisted => ?_
  refine ((Faultless.orDefect _ _).yields fun _ _ => trivial).bind fun before _ => ?_
  have hwellFormed := hfits.read.wellFormed offset _ hlisted
  refine ((Context.ordinary_execute _ _ _ _ hwellFormed).faultless.yields fun _ => id).bind
    fun step hexecute => ?_
  refine (IndexSet.yields_add (hfits.sized.traced ▸ hlt)).bind fun traced htraced => ?_
  refine (Evaluation.yields_note step.event fun entry he => ?_).bind fun noted hnoted => ?_
  · exact hfits.sized.returning ▸ hfits.entries entry he
  have hsites : noted.sites.size = progress.evaluation.size := hnoted.sites ▸ hfits.sized.sites
  have hroom : HasRoom { counted with evaluation := noted } := by
    intro o ho
    rw [Evaluation.instruction?, hnoted.listing] at ho
    rw [hsites]
    exact hfits.read.lt_size o ho
  refine (yields_enterHandlers hroom before.locals).bind fun handled hhandled => ?_
  have hsites' : offset < handled.evaluation.sites.size := by
    rw [hhandled.outline.sites, hsites]
    exact hlt
  refine (yields_enterSuccessors (hhandled.hasRoom hroom) hsites' step.successors step.frame).bind
    fun entered hentered => ?_
  obtain ⟨hpasses, hchecked⟩ := hentered
  have hall := hhandled.trans hpasses
  refine (Evaluation.yields_modifySite _ (hall.outline.sites ▸ hsites ▸ hlt)).bind
    fun evaluation hlast => .pure ?_
  have houtline := hall.outline.trans hlast
  have hlisting : evaluation.listing = progress.evaluation.listing :=
    houtline.listing.trans hnoted.listing
  have hsize : evaluation.size = progress.evaluation.size := by
    rw [Evaluation.size, hlisting, Evaluation.size]
  refine ⟨⟨⟨?_, ?_, ?_⟩, ?_, ?_, ?_, ?_, ?_⟩, hlisting, ?_⟩
  · rw [houtline.sites, hsites, hsize]
  · rw [houtline.traced, hnoted.traced, htraced.1, hfits.sized.traced, hsize]
  · rw [houtline.returning, hnoted.returning, hfits.sized.returning, hsize]
  · exact hlisting ▸ hfits.read
  · rw [hall.visits, hcounted.size, hfits.visits, hsize]
  · exact hall.visits ▸ hcounted.limited hfits.limited
  · intro o ho
    rw [hsize]
    rcases hall.pending o ho with hp | hlt
    · exact hfits.pending o (hcounted.pending ▸ hp)
    · exact hsites ▸ hlt
  · intro entry he
    rw [houtline.returnPoints] at he
    rw [hsize]
    rcases hnoted.entries entry he with hold | ⟨back, hevent⟩
    · exact hfits.entries entry hold
    · have hsome := hchecked entry (Context.mem_successors_of_call hexecute hevent)
      rw [Evaluation.instruction?, hpasses.outline.listing, hhandled.outline.listing,
        hnoted.listing] at hsome
      exact hfits.read.lt_size entry hsome
  · rw [hall.visits, hcounted.sum]

theorem Fits.sum_le (h : progress.Fits options.maxVisits) :
    progress.visits.toList.sum ≤ progress.evaluation.size * options.maxVisits := by
  have hle := List.sum_le_card_nsmul progress.visits.toList options.maxVisits
    fun n hn => h.limited n (Array.mem_toList_iff.mp hn)
  rwa [Array.length_toList, h.visits, Nat.nsmul_eq_mul] at hle

/-- **The iteration does not fault**: all visits together do not use up its bound. -/
theorem yields_iterate {bound : Nat} (hfits : progress.Fits options.maxVisits)
    (hbound : progress.evaluation.size * options.maxVisits < progress.visits.toList.sum + bound) :
    Yields (progress.iterate options pool method handlers bound) Evaluation.Sized := by
  induction bound generalizing progress with
  | zero =>
    have hle := hfits.sum_le
    omega
  | succ bound ih =>
    rw [iterate]
    split
    · exact .ok hfits.sized
    · rename_i offset rest hpop
      have helements := OrderedSet.elements_of_popFirst?_eq_some hpop
      have hrest : Fits options.maxVisits { progress with pending := rest } :=
        { hfits with pending := fun o ho => hfits.pending o (helements ▸ List.mem_cons_of_mem _ ho) }
      have hlt := hfits.pending offset (helements ▸ List.mem_cons_self)
      refine (yields_visit hrest hlt).bind fun next hvisited => ?_
      obtain ⟨hnext, hlisting, hsum⟩ := hvisited
      refine ih hnext ?_
      have hsize : next.evaluation.size = progress.evaluation.size := by
        rw [Evaluation.size, hlisting, Evaluation.size]
      rw [hsize, hsum]
      simp only
      omega

end Progress

/-! ## The whole evaluation -/

theorem Evaluation.sized_blank (listing : Listing) : (Evaluation.blank listing).Sized := by
  refine ⟨?_, ?_, ?_⟩ <;> simp [blank, size]

theorem ordinary_storeParameters (options : EvaluationOptions) (owner : String) (method : Method)
    (types : List FieldType) (slot : UInt16) (locals : Locals) :
    Ordinary (storeParameters options owner method types slot locals) := by
  induction types generalizing slot locals with
  | nil => exact .ok locals
  | cons type rest ih => exact (locals.ordinary_store _ _ _).bind fun _ _ => ih _ _

theorem ordinary_entryLocals (options : EvaluationOptions) (owner : String) (method : Method)
    (maxLocals : UInt16) : Ordinary (entryLocals options owner method maxLocals) := by
  refine (MethodDescriptor.ordinary_parse _).bind fun descriptor _ => .ite (fun _ => ?_) fun _ => ?_
  · exact ordinary_storeParameters options owner method _ _ _
  · exact (Locals.ordinary_store _ _ _ _).bind fun _ _ =>
      ordinary_storeParameters options owner method _ _ _

/-- **An evaluation does not fault**, whatever it is given. -/
theorem yields_evaluate (options : EvaluationOptions) (pool : ConstantPool) (owner : String)
    (method : Method) (code : Code) :
    Yields (evaluate options pool owner method code) Evaluation.Sized := by
  refine ((Listing.ordinary_ofCode _).faultless.yields fun _ => Listing.read_of_ofCode).bind
    fun listing hread => ?_
  refine .ite (fun _ => .pure (Evaluation.sized_blank listing)) fun hnonempty => ?_
  refine ((ordinary_entryLocals _ _ _ _).faultless.yields fun _ _ => trivial).bind
    fun locals _ => ?_
  have hpositive : 0 < listing.size := by
    by_contra hzero
    exact hnonempty (by simp [Nat.eq_zero_of_not_pos hzero])
  have hsized := Evaluation.sized_blank listing
  refine (Progress.yields_merge _ (by simpa [Evaluation.blank] using hpositive)).bind
    fun start hstart => ?_
  have hsize : start.evaluation.size = listing.size := by
    rw [Evaluation.size, hstart.outline.listing]
    rfl
  refine Progress.yields_iterate ⟨hstart.outline.sized hsized, ?_, ?_, ?_, ?_, ?_⟩ ?_
  · exact hstart.outline.listing ▸ hread
  · simp [hstart.visits, hsize]
  · intro n hn
    rw [hstart.visits] at hn
    simp [(Array.mem_replicate.mp hn).2]
  · intro o ho
    rw [hsize]
    rcases hstart.pending o ho with hnone | hlt
    · cases hnone
    · simpa [Evaluation.blank] using hlt
  · intro entry he
    rw [hstart.outline.returnPoints] at he
    cases he
  · rw [hsize]
    omega

end JvmTrim
