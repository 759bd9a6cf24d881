import JvmTrim.Proofs.PostFixpoint

/-!
# The result of an evaluation, as a whole

An evaluation ends when nothing changes any more. What it has recorded then fits together: the frames
are stable under every instruction and every handler, and the edges of the control flow are recorded
at both of their ends. The first part is that an evaluation is closed. The second one is a property
of the steps alone: whenever an edge is recorded at its start, it is recorded at its end as well, and
nothing else touches edges.

Edges are recorded by 32 bits of their offsets, so the two ends can be told apart only in bodies that
32 bits can address.

## Main definitions

* `Evaluation.Mirrored`: every edge is recorded at both ends

## Main results

* `Progress.visit_mirrored`: a visit keeps the edges mirrored
* `evaluate_stable`: what an evaluation has recorded is stable
-/

namespace JvmTrim

namespace Evaluation

/-- Whether control may come to an offset from another one. -/
def ComesFrom (evaluation : Evaluation) (offset origin : Nat) : Prop :=
  ∃ site, evaluation.sites[offset]? = some site ∧ origin ∈ site.origins.elements

theorem comesFrom_iff {evaluation : Evaluation} {offset origin : Nat} :
    evaluation.ComesFrom offset origin ↔
      ∃ set, evaluation.origins offset = .ok set ∧ origin ∈ set.elements := by
  unfold ComesFrom origins
  cases evaluation.sites[offset]? <;> simp [orFail]

/-- Whether every edge is recorded at both ends, in a body that 32 bits can address. -/
structure Mirrored (evaluation : Evaluation) : Prop where
  size : evaluation.sites.size ≤ UInt32.size
  edges : ∀ offset successor, evaluation.Leads offset successor ↔
    evaluation.ComesFrom successor offset

variable {evaluation evaluation' middle : Evaluation} {offset successor : Nat}

/-- Nothing but the sites matters for edges. -/
theorem Mirrored.of_sites (h : evaluation.Mirrored) (hsites : evaluation'.sites = evaluation.sites) :
    evaluation'.Mirrored where
  size := hsites ▸ h.size
  edges o s := by
    simpa only [Leads, ComesFrom, hsites] using h.edges o s

theorem Mirrored.blank {listing : Listing} (hsize : listing.size ≤ UInt32.size) :
    (Evaluation.blank listing).Mirrored where
  size := by simpa [Evaluation.blank] using hsize
  edges o s := by
    refine iff_of_false (not_leads_blank listing o s) ?_
    rintro ⟨site, hs, hm⟩
    simp only [Evaluation.blank, Array.getElem?_replicate] at hs
    split at hs
    · cases hs
      cases hm
    · cases hs

/-! ## Changes of single sites -/

section Modify

variable {change : Site → Site} (h : evaluation.modifySite offset change = .ok evaluation')

include h

theorem size_modifySite : evaluation'.sites.size = evaluation.sites.size := by
  obtain ⟨-, rfl⟩ := modifySite_eq_ok h
  exact Array.size_modify

theorem leads_modifySite {o s : Nat} (htargets : ∀ site, (change site).targets = site.targets) :
    evaluation'.Leads o s ↔ evaluation.Leads o s := by
  obtain ⟨-, rfl⟩ := modifySite_eq_ok h
  simp only [Leads, Array.getElem?_modify]
  split
  · simp [htargets]
  · rfl

theorem comesFrom_modifySite {o s : Nat} (horigins : ∀ site, (change site).origins = site.origins) :
    evaluation'.ComesFrom s o ↔ evaluation.ComesFrom s o := by
  obtain ⟨-, rfl⟩ := modifySite_eq_ok h
  simp only [ComesFrom, Array.getElem?_modify]
  split
  · simp [horigins]
  · rfl

theorem Mirrored.modifySite (hm : evaluation.Mirrored)
    (htargets : ∀ site, (change site).targets = site.targets)
    (horigins : ∀ site, (change site).origins = site.origins) : evaluation'.Mirrored where
  size := size_modifySite h ▸ hm.size
  edges o s := by
    rw [leads_modifySite h htargets, comesFrom_modifySite h horigins]
    exact hm.edges o s

end Modify

theorem leads_recordTarget {o s : Nat} (h : evaluation.modifySite offset
      (fun site => { site with targets := OffsetSet.record site.targets successor })
        = .ok evaluation') :
    evaluation'.Leads o s ↔ evaluation.Leads o s ∨ o = offset ∧ s = recordedOffset successor := by
  obtain ⟨hlt, rfl⟩ := modifySite_eq_ok h
  simp only [Leads, Array.getElem?_modify]
  split
  · rename_i heq
    subst heq
    simp [Array.getElem?_eq_getElem hlt, OffsetSet.record, Progress.mem_insert_offset, or_comm]
  · rename_i hne
    simp [Ne.symm hne]

theorem comesFrom_recordOrigin {o s : Nat} (h : evaluation.modifySite successor
      (fun site => { site with origins := OffsetSet.record site.origins offset })
        = .ok evaluation') :
    evaluation'.ComesFrom s o ↔
      evaluation.ComesFrom s o ∨ s = successor ∧ o = recordedOffset offset := by
  obtain ⟨hlt, rfl⟩ := modifySite_eq_ok h
  simp only [ComesFrom, Array.getElem?_modify]
  split
  · rename_i heq
    subst heq
    simp [Array.getElem?_eq_getElem hlt, OffsetSet.record, Progress.mem_insert_offset, or_comm]
  · rename_i hne
    simp [Ne.symm hne]

/-- An edge that is recorded at both ends. -/
theorem Mirrored.recordEdge (hm : evaluation.Mirrored)
    (h : evaluation.modifySite offset
      (fun site => { site with targets := OffsetSet.record site.targets successor }) = .ok middle)
    (h' : middle.modifySite successor
      (fun site => { site with origins := OffsetSet.record site.origins offset })
        = .ok evaluation') : evaluation'.Mirrored := by
  have hsize := hm.size
  have hmiddle := size_modifySite h
  have hoffset : recordedOffset offset = offset :=
    Nat.mod_eq_of_lt (Nat.lt_of_lt_of_le (modifySite_eq_ok h).1 hsize)
  have hsuccessor : recordedOffset successor = successor :=
    Nat.mod_eq_of_lt (Nat.lt_of_lt_of_le (modifySite_eq_ok h').1 (hmiddle ▸ hsize))
  refine ⟨size_modifySite h' ▸ hmiddle ▸ hsize, fun o s => ?_⟩
  rw [leads_modifySite h' fun _ => rfl, leads_recordTarget h, comesFrom_recordOrigin h',
    comesFrom_modifySite h fun _ => rfl, hm.edges o s, hoffset, hsuccessor, and_comm]

end Evaluation

/-! ## Edges along an iteration -/

namespace Progress

variable {options : EvaluationOptions} {pool : ConstantPool} {method : Method}
  {handlers : List Handler} {offset : Nat} {progress progress' : Progress}

theorem merge_mirrored {frame : Frame} (hm : progress.evaluation.Mirrored)
    (h : progress.merge offset frame = .ok progress') : progress'.evaluation.Mirrored := by
  rw [merge] at h
  split at h
  · obtain ⟨joined, -, h⟩ := Except.bind_eq_ok.mp h
    split at h
    · cases h
      exact hm
    · obtain ⟨evaluation, he, h⟩ := Except.bind_eq_ok.mp h
      cases h
      exact hm.modifySite he (fun _ => rfl) fun _ => rfl
  · obtain ⟨evaluation, he, h⟩ := Except.bind_eq_ok.mp h
    cases h
    exact hm.modifySite he (fun _ => rfl) fun _ => rfl

theorem enterHandlers_mirrored {locals : Locals} (hm : progress.evaluation.Mirrored)
    (h : progress.enterHandlers options handlers offset locals = .ok progress') :
    progress'.evaluation.Mirrored := by
  refine foldlM_invariant (fun s : Progress => s.evaluation.Mirrored) ?_ hm h
  intro s handler s' _ hs hstep
  split at hstep
  · cases hstep
    exact hs
  · split at hstep
    · cases hstep
    · exact merge_mirrored hs hstep

theorem enterSuccessors_mirrored {successors : List Nat} {frame : Frame}
    (hm : progress.evaluation.Mirrored)
    (h : progress.enterSuccessors options successors offset frame = .ok progress') :
    progress'.evaluation.Mirrored := by
  refine foldlM_invariant (fun s : Progress => s.evaluation.Mirrored) ?_ hm h
  intro s successor s' _ hs hstep
  split at hstep
  · cases hstep
  · split at hstep
    · cases hstep
      exact hs
    · obtain ⟨evaluation, he, hstep⟩ := Except.bind_eq_ok.mp hstep
      obtain ⟨evaluation', he', hstep⟩ := Except.bind_eq_ok.mp hstep
      have hedge : ({ s with evaluation := evaluation' } : Progress).evaluation.Mirrored :=
        hs.recordEdge he he'
      exact merge_mirrored hedge hstep

/-- **A visit keeps the edges mirrored.** -/
theorem visit_mirrored (hm : progress.evaluation.Mirrored)
    (h : progress.visit options pool method handlers offset = .ok progress') :
    progress'.evaluation.Mirrored := by
  obtain ⟨counted, hcount, h⟩ := Except.bind_eq_ok.mp h
  obtain ⟨instruction, -, h⟩ := Except.bind_eq_ok.mp h
  obtain ⟨before, -, h⟩ := Except.bind_eq_ok.mp h
  obtain ⟨step, -, h⟩ := Except.bind_eq_ok.mp h
  obtain ⟨traced, -, h⟩ := Except.bind_eq_ok.mp h
  obtain ⟨noted, hnote, h⟩ := Except.bind_eq_ok.mp h
  obtain ⟨handled, hhandle, h⟩ := Except.bind_eq_ok.mp h
  obtain ⟨entered, henter, h⟩ := Except.bind_eq_ok.mp h
  obtain ⟨evaluation, hafter, h⟩ := Except.bind_eq_ok.mp h
  cases h
  have hcounted : counted.evaluation.sites = progress.evaluation.sites := by
    rw [(count_eq_ok hcount).1]
  have hnoted : noted.Mirrored := hm.of_sites ((Evaluation.note_eq_ok hnote).2.1.trans hcounted)
  have hentered := enterSuccessors_mirrored (enterHandlers_mirrored hnoted hhandle) henter
  exact hentered.modifySite hafter (fun _ => rfl) fun _ => rfl

theorem Iterates.mirrored {bound : Nat} {last : Progress}
    (h : progress.Iterates options pool method handlers bound last)
    (hm : progress.evaluation.Mirrored) : last.evaluation.Mirrored := by
  induction h with
  | done => exact hm
  | @visit _ _ rest progress _ _ _ hvisit _ ih =>
    have hrest : ({ progress with pending := rest } : Progress).evaluation.Mirrored := hm
    exact ih (visit_mirrored hrest hvisit)

end Progress

variable {options : EvaluationOptions} {pool : ConstantPool} {owner : String} {method : Method}
  {code : Code} {evaluation : Evaluation}

theorem mirrored_of_evaluate (hsize : code.bytes.length ≤ UInt32.size)
    (h : evaluate options pool owner method code = .ok evaluation) : evaluation.Mirrored := by
  have hblank {listing : Listing} (hlisting : Listing.ofCode code.bytes = .ok listing) :
      (Evaluation.blank listing).Mirrored := .blank (Listing.size_of_ofCode hlisting ▸ hsize)
  cases evaluates_of_evaluate h with
  | blank hlisting => exact hblank hlisting
  | visits hlisting _ _ hstart hiterates =>
    exact hiterates.mirrored (Progress.merge_mirrored (hblank hlisting) hstart)

/-! ## The result as a whole -/

/-- What is recorded of a body, and stays as it is when everything is passed on once more. -/
structure Evaluation.Stable (evaluation : Evaluation) (options : EvaluationOptions)
    (pool : ConstantPool) (owner : String) (method : Method) (code : Code) : Prop where
  /-- The frame that the method is entered with, joined into the frame before the first instruction,
  changes nothing. -/
  entry : code.bytes ≠ [] → options.allows 0 = true → ∃ locals before,
    entryLocals options owner method code.maxLocals = .ok locals ∧
      evaluation.before? 0 = some before ∧ before.joinAt 0 ⟨locals, Stack.empty⟩ = .ok before
  /-- A traced instruction turns the frame before it into the frame after it. Joined into the frame
  before any successor, which is traced and recorded as a target, that changes nothing; neither does
  the frame with which a handler is entered. -/
  traced : ∀ offset, evaluation.isTraced offset = true → ∃ instruction before step targets,
    evaluation.instruction? offset = some instruction ∧ evaluation.before? offset = some before ∧
    (options.context pool).execute offset (evaluation.nextOffset offset) instruction before
      = .ok step ∧
    evaluation.after? offset = some step.frame ∧ evaluation.targets offset = .ok targets ∧
    (∀ successor ∈ step.successors, options.allows successor = true →
      evaluation.isTraced successor = true ∧ recordedOffset successor ∈ targets.elements ∧
      ∃ next, evaluation.before? successor = some next ∧
        next.joinAt successor step.frame = .ok next) ∧
    ∀ handler ∈ code.handlers, handler.covers offset = true →
      options.allows handler.target = true → evaluation.isTraced handler.target = true ∧
      ∃ next, evaluation.before? handler.target = some next ∧
        next.joinAt handler.target (handlerFrame options.detail handler.target before.locals)
          = .ok next
  /-- Offsets that fit into 32 bits are recorded as they are. -/
  recorded : code.bytes.length ≤ UInt32.size → ∀ offset, evaluation.isTraced offset = true →
    recordedOffset offset = offset
  /-- An offset is a target of another one exactly if that one is an origin of it. -/
  edges : code.bytes.length ≤ UInt32.size → ∀ offset successor targets origins,
    evaluation.targets offset = .ok targets → evaluation.origins successor = .ok origins →
      (successor ∈ targets.elements ↔ offset ∈ origins.elements)

/-- **What an evaluation has recorded is stable.** -/
theorem evaluate_stable (h : evaluate options pool owner method code = .ok evaluation) :
    evaluation.Stable options pool owner method code := by
  obtain ⟨hclosed, -, hentry⟩ := closed_of_evaluate h
  have hreceived {o : Nat} {frame : Frame} (hr : evaluation.Receives o frame) :
      evaluation.isTraced o = true ∧ ∃ next, evaluation.before? o = some next ∧
        next.joinAt o frame = .ok next := by
    obtain ⟨next, hn, hcovers⟩ := hr
    obtain ⟨_, _, hsettled⟩ := hclosed.settled o next hn
    exact ⟨hsettled.traced, next, hn, Frame.covers_iff.mp hcovers⟩
  have hsite {o : Nat} (ht : evaluation.isTraced o = true) : ∃ site before,
      evaluation.sites[o]? = some site ∧ evaluation.before? o = some before := by
    obtain ⟨before, hb⟩ := Option.isSome_iff_exists.mp (hclosed.traced o ht)
    obtain ⟨site, hs, -⟩ := Option.bind_eq_some_iff.mp hb
    exact ⟨site, before, hs, hb⟩
  refine ⟨fun hne hallowed => ?_, fun offset ht => ?_, fun hsize offset ht => ?_,
    fun hsize o s targets origins ht ho => ?_⟩
  · -- the entry
    obtain ⟨locals, hlocals, hr⟩ := hentry hne hallowed
    obtain ⟨-, before, hb, hjoin⟩ := hreceived hr
    exact ⟨locals, before, hlocals, hb, hjoin⟩
  · -- a step
    obtain ⟨site, before, hs, hb⟩ := hsite ht
    obtain ⟨instruction, step, hsettled⟩ := hclosed.settled offset before hb
    have htargets : evaluation.targets offset = .ok site.targets := by
      rw [Evaluation.targets, hs]
      rfl
    refine ⟨instruction, before, step, site.targets, hsettled.listed, hb, hsettled.execute,
      hsettled.after, htargets, fun successor hmem ha => ?_, fun handler hmem hc ha =>
        hreceived (hsettled.handlers handler hmem hc ha).2⟩
    obtain ⟨hleads, hr⟩ := hsettled.successors successor hmem ha
    obtain ⟨targets, htargets', hmem'⟩ := Evaluation.leads_iff.mp hleads
    cases htargets.symm.trans htargets'
    exact ⟨(hreceived hr).1, hmem', (hreceived hr).2⟩
  · obtain ⟨site, -, hs, -⟩ := hsite ht
    obtain ⟨hlt, -⟩ := Array.getElem?_eq_some_iff.mp hs
    exact Nat.mod_eq_of_lt (Nat.lt_of_lt_of_le hlt (mirrored_of_evaluate hsize h).size)
  · have hedges := (mirrored_of_evaluate hsize h).edges o s
    rw [Evaluation.leads_iff, Evaluation.comesFrom_iff, ht, ho] at hedges
    simpa using hedges

/-- A division under a handler that returns zero. -/
def guardedDivision : Code where
  maxStack := 2
  maxLocals := 1
  bytes := [0x10, 100, 0x1A, 0x6C, 0xAC, 0x57, 0x03, 0xAC]
  handlers := [⟨0, 5, 5, 0⟩]
  lines := []
  localRanges := []

/-- The evaluation that follows the division into its handler. -/
theorem evaluate_stable_guardedDivision : ∃ evaluation,
    evaluate (.precise .none) ⟨#[]⟩ "Quotients" ⟨AccessFlags.static, "divide", "(I)I", none⟩
        guardedDivision = .ok evaluation ∧
      evaluation.isTraced 3 = true ∧ evaluation.isTraced 5 = true ∧
      evaluation.Stable (.precise .none) ⟨#[]⟩ "Quotients"
        ⟨AccessFlags.static, "divide", "(I)I", none⟩ guardedDivision := by
  obtain ⟨evaluation, h⟩ := Except.exists_ok (by decide +kernel :
    (evaluate (.precise .none) ⟨#[]⟩ "Quotients" ⟨AccessFlags.static, "divide", "(I)I", none⟩
      guardedDivision).isOk = true)
  have htraced : (evaluate (.precise .none) ⟨#[]⟩ "Quotients"
      ⟨AccessFlags.static, "divide", "(I)I", none⟩ guardedDivision).toOption.all
        (fun evaluation => evaluation.isTraced 3 && evaluation.isTraced 5) = true := by
    decide +kernel
  simp only [h, Except.toOption, Option.all_some, Bool.and_eq_true] at htraced
  exact ⟨evaluation, h, htraced.1, htraced.2, evaluate_stable h⟩

end JvmTrim
