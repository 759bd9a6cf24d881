import Mathlib.Logic.Relation
import JvmTrim.Proofs.Boundaries
import JvmTrim.Proofs.Join

/-!
# An evaluation is closed under execution

When the iteration ends, nothing is left to pass on: executing any reached instruction on the frame
recorded before it gives the frame recorded after it, and the frame before every successor, and
before every handler that protects the instruction, covers what is passed to it.

The iteration keeps the invariant that an offset with a frame is pending or `Settled`. A visit may
change the very frame that it was made with, when an instruction leads back to itself; the offset is
then pending again, and nothing needs to be known of the visit.

## Main definitions

* `Frame.JoinsTo`: a join that changes a frame
* `Evaluation.Leads`: an edge of the recorded control flow
* `Evaluation.Settled`: what executing an instruction gives has been passed on
* `Progress.Grows`: what a merge may do to the state of the iteration
* `Progress.Visited`: what a visit does
* `Progress.Iterates`, `Evaluates`: the course of an iteration and of an evaluation
* `Evaluation.Closed`: every offset with a frame is settled

## Main results

* `Progress.visit_spec`: what one visit does
* `closed_of_evaluate`: the evaluation of a body is closed
-/

namespace JvmTrim

open Relation (ReflTransGen TransGen)

/-- What executing an instruction depends on, in an evaluation. -/
def EvaluationOptions.context (options : EvaluationOptions) (pool : ConstantPool) : Context :=
  ⟨pool, options.detail, options.assumptions⟩

/-- Whether a join changes one frame into another. -/
def Frame.JoinsTo (old new : Frame) : Prop :=
  new ≠ old ∧ ∃ offset frame, old.joinAt offset frame = .ok new

/-- Joins cover what was covered. -/
theorem Frame.covers_of_joinsTo {old new : Frame} (h : ReflTransGen JoinsTo old new) :
    ∀ below, old.Covers below → new.Covers below := by
  induction h with
  | refl => exact fun _ hbelow => hbelow
  | tail _ hjoins ih =>
    obtain ⟨-, offset, frame, hjoined⟩ := hjoins
    exact fun below hbelow => (covers_joinAt hjoined).2 below (ih below hbelow)

namespace Evaluation

/-- Whether control is recorded to go on from `offset` to a recorded offset. -/
def Leads (evaluation : Evaluation) (offset successor : Nat) : Prop :=
  ∃ site, evaluation.sites[offset]? = some site ∧ successor ∈ site.targets.elements

theorem leads_iff {evaluation : Evaluation} {offset successor : Nat} :
    evaluation.Leads offset successor ↔
      ∃ set, evaluation.targets offset = .ok set ∧ successor ∈ set.elements := by
  simp only [Leads, targets, orFail_eq_ok, Option.map_eq_some_iff]
  constructor
  · rintro ⟨site, hs, hm⟩
    exact ⟨_, ⟨site, hs, rfl⟩, hm⟩
  · rintro ⟨_, ⟨site, hs, rfl⟩, hm⟩
    exact ⟨site, hs, hm⟩

theorem modifySite_eq_ok {evaluation evaluation' : Evaluation} {offset : Nat}
    {change : Site → Site} (h : evaluation.modifySite offset change = .ok evaluation') :
    offset < evaluation.sites.size ∧
      evaluation' = { evaluation with sites := evaluation.sites.modify offset change } := by
  rw [modifySite] at h
  split at h
  · rename_i hlt
    cases h
    exact ⟨hlt, rfl⟩
  · cases h

/-- The recorded calls of initializers. -/
def initializerCalls (evaluation : Evaluation) : List Nat :=
  evaluation.initializations.map (·.2) ++ evaluation.superInitialization.toList

/-- What the frame before `offset` has become covers `frame`. -/
def Receives (evaluation : Evaluation) (offset : Nat) (frame : Frame) : Prop :=
  ∃ before, evaluation.before? offset = some before ∧ before.Covers frame

/-- Whether a property of the frames before offsets survives the joins that are recorded. -/
def JoinClosed (evaluation : Evaluation) (P : Nat → Frame → Prop) : Prop :=
  ∀ offset a b joined, P offset a → P offset b → a.joinAt offset b = .ok joined →
    evaluation.Receives offset joined → P offset joined

/-- What executing the instruction at `offset` on the frame `before` gives has been passed on. -/
structure Settled (evaluation : Evaluation) (options : EvaluationOptions) (pool : ConstantPool)
    (handlers : List Handler) (offset : Nat) (before : Frame) (instruction : Instruction)
    (step : Step) : Prop where
  listed : evaluation.instruction? offset = some instruction
  execute : (options.context pool).execute offset (evaluation.nextOffset offset) instruction before
    = .ok step
  traced : evaluation.isTraced offset = true
  after : evaluation.after? offset = some step.frame
  boundary : ∀ successor ∈ step.successors, (evaluation.instruction? successor).isSome
  successors : ∀ successor ∈ step.successors, options.allows successor = true →
    evaluation.Leads offset (recordedOffset successor) ∧ evaluation.Receives successor step.frame
  handlers : ∀ handler ∈ handlers, handler.covers offset = true →
    options.allows handler.target = true → (evaluation.instruction? handler.target).isSome ∧
      evaluation.Receives handler.target (handlerFrame options.detail handler.target before.locals)

end Evaluation

/-! ## Merging -/

namespace Progress

/-- What a part of a visit does to the state: frames only grow, namely by joins with frames that are
`sent`, an offset becomes pending exactly if its frame is new or changed, and no edge beside `edges`
is recorded. -/
structure Grows (edges : Nat → Nat → Prop) (sent : Nat → Frame → Prop) (old new : Progress) :
    Prop where
  listing : new.evaluation.listing = old.evaluation.listing
  sites : new.evaluation.sites.size = old.evaluation.sites.size
  visits : new.visits = old.visits
  traced : new.evaluation.traced = old.evaluation.traced
  calls : new.evaluation.initializerCalls = old.evaluation.initializerCalls
  initializations : new.evaluation.initializations = old.evaluation.initializations
  after : ∀ offset, new.evaluation.after? offset = old.evaluation.after? offset
  before : ∀ offset frame, old.evaluation.before? offset = some frame →
    ∃ frame', new.evaluation.before? offset = some frame' ∧
      ReflTransGen Frame.JoinsTo frame frame'
  changed : ∀ offset frame, new.evaluation.before? offset = some frame →
    old.evaluation.before? offset = some frame ∨ offset ∈ new.pending.elements
  entered : ∀ offset ∈ new.pending.elements, offset ∈ old.pending.elements ∨
    ∃ frame', new.evaluation.before? offset = some frame' ∧
      ∀ frame, old.evaluation.before? offset = some frame → TransGen Frame.JoinsTo frame frame'
  pending : ∀ offset ∈ old.pending.elements, offset ∈ new.pending.elements
  leads : ∀ offset successor, old.evaluation.Leads offset successor →
    new.evaluation.Leads offset successor
  edges : ∀ offset successor, new.evaluation.Leads offset successor →
    old.evaluation.Leads offset successor ∨ edges offset successor
  frames : ∀ P : Nat → Frame → Prop, new.evaluation.JoinClosed P →
    (∀ offset frame, sent offset frame → new.evaluation.Receives offset frame → P offset frame) →
    (∀ offset frame, old.evaluation.before? offset = some frame → P offset frame) →
    ∀ offset frame, new.evaluation.before? offset = some frame → P offset frame

namespace Grows

variable {edges : Nat → Nat → Prop} {sent : Nat → Frame → Prop} {a b c : Progress}

theorem refl (edges : Nat → Nat → Prop) (sent : Nat → Frame → Prop) (a : Progress) :
    Grows edges sent a a where
  listing := rfl
  sites := rfl
  visits := rfl
  traced := rfl
  calls := rfl
  initializations := rfl
  after _ := rfl
  before _ frame h := ⟨frame, h, .refl⟩
  changed _ _ h := .inl h
  entered _ h := .inl h
  pending _ h := h
  leads _ _ h := h
  edges _ _ h := .inl h
  frames _ _ _ h := h

theorem receives (h : Grows edges sent a b) {offset : Nat} {frame : Frame}
    (hr : a.evaluation.Receives offset frame) : b.evaluation.Receives offset frame := by
  obtain ⟨before, hb, hc⟩ := hr
  obtain ⟨before', hb', hjoins⟩ := h.before offset before hb
  exact ⟨before', hb', Frame.covers_of_joinsTo hjoins frame hc⟩

theorem trans (hab : Grows edges sent a b) (hbc : Grows edges sent b c) :
    Grows edges sent a c where
  listing := hbc.listing.trans hab.listing
  sites := hbc.sites.trans hab.sites
  visits := hbc.visits.trans hab.visits
  traced := hbc.traced.trans hab.traced
  calls := hbc.calls.trans hab.calls
  initializations := hbc.initializations.trans hab.initializations
  after offset := (hbc.after offset).trans (hab.after offset)
  before offset frame h := by
    obtain ⟨middle, hm, hcm⟩ := hab.before offset frame h
    obtain ⟨last, hl, hcl⟩ := hbc.before offset middle hm
    exact ⟨last, hl, hcm.trans hcl⟩
  changed offset frame h := by
    rcases hbc.changed offset frame h with h | h
    · rcases hab.changed offset frame h with h | h
      · exact .inl h
      · exact .inr (hbc.pending offset h)
    · exact .inr h
  entered offset h := by
    rcases hbc.entered offset h with h | ⟨last, hl, hcl⟩
    · refine (hab.entered offset h).imp_right fun ⟨middle, hm, hcm⟩ => ?_
      obtain ⟨last, hl, hcl⟩ := hbc.before offset middle hm
      exact ⟨last, hl, fun frame hf => (hcm frame hf).trans_left hcl⟩
    · refine .inr ⟨last, hl, fun frame hf => ?_⟩
      obtain ⟨middle, hm, hcm⟩ := hab.before offset frame hf
      exact (hcl middle hm).trans_right hcm
  pending offset h := hbc.pending offset (hab.pending offset h)
  leads offset successor h := hbc.leads offset successor (hab.leads offset successor h)
  edges offset successor h := by
    rcases hbc.edges offset successor h with h | h
    · exact hab.edges offset successor h
    · exact .inr h
  frames P hjoin hsent hold := by
    refine hbc.frames P hjoin hsent (hab.frames P ?_ ?_ hold)
    · exact fun o x y z hx hy hz hr => hjoin o x y z hx hy hz (hbc.receives hr)
    · exact fun o frame hs hr => hsent o frame hs (hbc.receives hr)

theorem mono {edges' : Nat → Nat → Prop} {sent' : Nat → Frame → Prop} (h : Grows edges sent a b)
    (hedges : ∀ offset successor, edges offset successor → edges' offset successor)
    (hsent : ∀ offset frame, sent offset frame → sent' offset frame) :
    Grows edges' sent' a b where
  listing := h.listing
  sites := h.sites
  visits := h.visits
  traced := h.traced
  calls := h.calls
  initializations := h.initializations
  after := h.after
  before := h.before
  changed := h.changed
  entered := h.entered
  pending := h.pending
  leads := h.leads
  edges offset successor hl := (h.edges offset successor hl).imp_right (hedges offset successor)
  frames P hjoin hs := h.frames P hjoin fun o frame ho => hs o frame (hsent o frame ho)

theorem instruction? (h : Grows edges sent a b) (offset : Nat) :
    b.evaluation.instruction? offset = a.evaluation.instruction? offset := by
  rw [Evaluation.instruction?, h.listing, Evaluation.instruction?]

end Grows

theorem mem_insert_offset {set : OffsetSet} {offset x : Nat} :
    x ∈ (set.insert offset).elements ↔ x = offset ∨ x ∈ set.elements :=
  OrderedSet.mem_insert (fun _ _ h => h) set offset x

/-- Setting the frame before `offset`, if there is one already then to a join that changes it. -/
theorem grows_setBefore {progress : Progress} {evaluation : Evaluation} {offset : Nat}
    {frame : Frame} (edges : Nat → Nat → Prop) (sent : Nat → Frame → Prop)
    (h : progress.evaluation.modifySite offset
      (fun site => { site with before := some frame }) = .ok evaluation)
    (hjoins : ∀ old, progress.evaluation.before? offset = some old → old.JoinsTo frame)
    (harises : ∀ P : Nat → Frame → Prop, evaluation.JoinClosed P →
      (∀ o f, sent o f → evaluation.Receives o f → P o f) →
      (∀ o f, progress.evaluation.before? o = some f → P o f) →
      evaluation.before? offset = some frame → P offset frame) :
    Grows edges sent progress ⟨evaluation, progress.pending.insert offset, progress.visits⟩ ∧
      evaluation.before? offset = some frame := by
  obtain ⟨hlt, rfl⟩ := Evaluation.modifySite_eq_ok h
  have hsite (o : Nat) : (progress.evaluation.sites.modify offset
      (fun site => { site with before := some frame }))[o]? =
      if offset = o then progress.evaluation.sites[o]?.map
        (fun site => { site with before := some frame }) else progress.evaluation.sites[o]? :=
    Array.getElem?_modify
  have hnew : (progress.evaluation.sites.modify offset
      (fun site => { site with before := some frame }))[offset]?.bind (·.before) = some frame := by
    rw [hsite, if_pos rfl, Array.getElem?_eq_getElem hlt]
    rfl
  refine ⟨⟨rfl, Array.size_modify, rfl, rfl, rfl, rfl, ?_, ?_, ?_, ?_, ?_, ?_, ?_, ?_⟩, hnew⟩
  · intro o
    simp only [Evaluation.after?, hsite]
    split
    · cases progress.evaluation.sites[o]? <;> rfl
    · rfl
  · intro o old ho
    by_cases heq : offset = o
    · subst heq
      exact ⟨frame, hnew, .single (hjoins old ho)⟩
    · refine ⟨old, ?_, .refl⟩
      simp only [Evaluation.before?, hsite, if_neg heq]
      exact ho
  · intro o new ho
    by_cases heq : offset = o
    · exact .inr (mem_insert_offset.mpr (.inl heq.symm))
    · simp only [Evaluation.before?, hsite, if_neg heq] at ho
      exact .inl ho
  · intro o ho
    rcases mem_insert_offset.mp ho with rfl | ho
    · exact .inr ⟨frame, hnew, fun old hold => .single (hjoins old hold)⟩
    · exact .inl ho
  · exact fun o ho => mem_insert_offset.mpr (.inr ho)
  · rintro o s ⟨site, hs, hm⟩
    simp only [Evaluation.Leads, hsite]
    split
    · exact ⟨{ site with before := some frame }, by rw [hs]; rfl, hm⟩
    · exact ⟨site, hs, hm⟩
  · rintro o s ⟨site, hs, hm⟩
    simp only [hsite] at hs
    split at hs
    · obtain ⟨site', hs', rfl⟩ := Option.map_eq_some_iff.mp hs
      exact .inl ⟨site', hs', hm⟩
    · exact .inl ⟨site, hs, hm⟩
  · intro P hjoin hsent hold o new ho
    by_cases heq : offset = o
    · subst heq
      cases hnew.symm.trans ho
      exact harises P hjoin hsent hold hnew
    · simp only [Evaluation.before?, hsite, if_neg heq] at ho
      exact hold o new ho

/-- **Merging a frame** makes the frame before its offset cover it. -/
theorem merge_spec {progress progress' : Progress} {offset : Nat} {frame : Frame}
    (edges : Nat → Nat → Prop) (sent : Nat → Frame → Prop) (hsent : sent offset frame)
    (h : progress.merge offset frame = .ok progress') :
    Grows edges sent progress progress' ∧ progress'.evaluation.Receives offset frame := by
  rw [merge] at h
  split at h
  · rename_i old hold
    obtain ⟨joined, hj, h⟩ := Except.bind_eq_ok.mp h
    obtain ⟨hnew, hcovers⟩ := Frame.covers_joinAt hj
    split at h
    · rename_i heq
      cases h
      subst heq
      exact ⟨.refl edges sent _, joined, hold, hnew⟩
    · rename_i hchanged
      obtain ⟨evaluation, he, h⟩ := Except.bind_eq_ok.mp h
      cases h
      obtain ⟨hgrows, hbefore⟩ := grows_setBefore edges sent he (by
        intro old' hold'
        cases hold.symm.trans hold'
        exact ⟨hchanged, offset, frame, hj⟩) (fun P hjoin hs holdP hbefore => hjoin offset old frame joined
          (holdP offset old hold) (hs offset frame hsent ⟨joined, hbefore, hnew⟩) hj
          ⟨joined, hbefore, joined.covers_refl⟩)
      exact ⟨hgrows, joined, hbefore, hnew⟩
  · rename_i hold
    obtain ⟨evaluation, he, h⟩ := Except.bind_eq_ok.mp h
    cases h
    obtain ⟨hgrows, hbefore⟩ := grows_setBefore edges sent he (by simp [hold])
      (fun P _ hs _ hbefore => hs offset frame hsent ⟨frame, hbefore, frame.covers_refl⟩)
    exact ⟨hgrows, frame, hbefore, frame.covers_refl⟩

/-! ## One visit -/

variable {options : EvaluationOptions} {pool : ConstantPool} {method : Method}
  {handlers : List Handler} {offset : Nat} {progress progress' : Progress}

theorem enterHandlers_spec {locals : Locals} (edges : Nat → Nat → Prop)
    (h : progress.enterHandlers options handlers offset locals = .ok progress') :
    Grows edges (fun o frame => ∃ handler ∈ handlers, handler.covers offset = true ∧
        o = handler.target ∧ frame = handlerFrame options.detail handler.target locals)
        progress progress' ∧ ∀ handler ∈ handlers, handler.covers offset = true →
      options.allows handler.target = true →
        (progress'.evaluation.instruction? handler.target).isSome ∧
          progress'.evaluation.Receives handler.target
            (handlerFrame options.detail handler.target locals) := by
  refine foldlM_along (Grows edges _) (fun handler (s : Progress) => handler.covers offset = true →
    options.allows handler.target = true → (s.evaluation.instruction? handler.target).isSome ∧
      s.evaluation.Receives handler.target (handlerFrame options.detail handler.target locals))
    (Grows.refl edges _) Grows.trans ?_ ?_ h
  · intro handler s s' hq hg hc ha
    obtain ⟨hi, hr⟩ := hq hc ha
    exact ⟨by rwa [hg.instruction?], hg.receives hr⟩
  · intro s handler s' hmem hs
    split at hs
    · rename_i hskip
      cases hs
      refine ⟨.refl edges _ _, fun hc ha => ?_⟩
      simp [hc, ha] at hskip
    · rename_i hkeep
      split at hs
      · cases hs
      · rename_i hsome
        simp only [Bool.or_eq_true, Bool.not_eq_eq_eq_not, Bool.not_true, not_or,
          Bool.not_eq_false] at hkeep
        obtain ⟨hg, hr⟩ := merge_spec edges (fun o frame => ∃ handler ∈ handlers,
          handler.covers offset = true ∧ o = handler.target ∧
            frame = handlerFrame options.detail handler.target locals)
          ⟨handler, hmem, hkeep.1, rfl, rfl⟩ hs
        refine ⟨hg, fun _ _ => ⟨?_, hr⟩⟩
        rw [hg.instruction?]
        simpa [Option.isSome_iff_ne_none] using hsome

/-- Recording an edge. -/
theorem grows_recordEdge {evaluation evaluation' : Evaluation} {successor : Nat}
    (h : progress.evaluation.modifySite offset
      (fun site => { site with targets := OffsetSet.record site.targets successor }) = .ok evaluation)
    (h' : evaluation.modifySite successor
      (fun site => { site with origins := OffsetSet.record site.origins offset }) = .ok evaluation') :
    Grows (fun o s => o = offset ∧ s = recordedOffset successor) (fun _ _ => False) progress
        { progress with evaluation := evaluation' } ∧
      evaluation'.Leads offset (recordedOffset successor) := by
  obtain ⟨hlt, rfl⟩ := Evaluation.modifySite_eq_ok h
  obtain ⟨-, rfl⟩ := Evaluation.modifySite_eq_ok h'
  clear h h'
  generalize hsites : (progress.evaluation.sites.modify offset _).modify successor _ = sites
  have hsize : sites.size = progress.evaluation.sites.size := by
    rw [← hsites, Array.size_modify, Array.size_modify]
  have hsite (o : Nat) : ∃ f : Site → Site, sites[o]? = progress.evaluation.sites[o]?.map f ∧
      ∀ site, (f site).before = site.before ∧ (f site).after = site.after ∧
        (f site).targets =
          if offset = o then OffsetSet.record site.targets successor else site.targets := by
    subst hsites
    simp only [Array.getElem?_modify]
    by_cases ho : offset = o <;> by_cases hs : successor = o
    · refine ⟨fun site => ⟨site.before, site.after, OffsetSet.record site.targets successor,
        OffsetSet.record site.origins offset⟩, ?_, by simp [ho]⟩
      simp only [ho, hs, if_true, Option.map_map]
      rfl
    · refine ⟨fun site => { site with targets := OffsetSet.record site.targets successor }, ?_,
        by simp [ho]⟩
      simp [ho, hs]
    · refine ⟨fun site => { site with origins := OffsetSet.record site.origins offset }, ?_,
        by simp [ho]⟩
      simp [ho, hs]
    · exact ⟨id, by simp [ho, hs], by simp [ho]⟩
  clear hsites
  have hbefore (o : Nat) : sites[o]?.bind (·.before) = progress.evaluation.before? o := by
    obtain ⟨f, hf, hfs⟩ := hsite o
    simp only [Evaluation.before?, hf]
    cases progress.evaluation.sites[o]? with
    | none => rfl
    | some site => exact (hfs site).1
  refine ⟨⟨rfl, hsize, rfl, rfl, rfl, rfl, ?_, ?_, ?_, fun _ => .inl, fun _ h => h, ?_, ?_, ?_⟩, ?_⟩
  · intro o
    obtain ⟨f, hf, hfs⟩ := hsite o
    simp only [Evaluation.after?, hf]
    cases progress.evaluation.sites[o]? with
    | none => rfl
    | some site => exact (hfs site).2.1
  · exact fun o frame ho => ⟨frame, (hbefore o).trans ho, .refl⟩
  · exact fun o frame ho => .inl ((hbefore o).symm.trans ho)
  · rintro o s ⟨site, hs, hm⟩
    obtain ⟨f, hf, hfs⟩ := hsite o
    refine ⟨f site, by simp only [hf, hs, Option.map_some], ?_⟩
    rw [(hfs site).2.2]
    split
    · exact mem_insert_offset.mpr (.inr hm)
    · exact hm
  · rintro o s ⟨site, hs, hm⟩
    obtain ⟨f, hf, hfs⟩ := hsite o
    simp only [hf] at hs
    obtain ⟨site', hs', rfl⟩ := Option.map_eq_some_iff.mp hs
    rw [(hfs site').2.2] at hm
    split at hm
    · rename_i heq
      rcases mem_insert_offset.mp hm with rfl | hm
      · exact .inr ⟨heq.symm, rfl⟩
      · exact .inl ⟨site', hs', hm⟩
    · exact .inl ⟨site', hs', hm⟩
  · exact fun P _ _ hold o frame ho => hold o frame ((hbefore o).symm.trans ho)
  · obtain ⟨f, hf, hfs⟩ := hsite offset
    refine ⟨f (progress.evaluation.sites[offset]), ?_, ?_⟩
    · simp only [hf, Array.getElem?_eq_getElem hlt, Option.map_some]
    · rw [(hfs _).2.2, if_pos rfl]
      exact mem_insert_offset.mpr (.inl rfl)

theorem enterSuccessors_spec {successors : List Nat} {frame : Frame}
    (h : progress.enterSuccessors options successors offset frame = .ok progress') :
    Grows (fun o s => o = offset ∧ ∃ successor ∈ successors, options.allows successor = true ∧
        s = recordedOffset successor) (fun o f => o ∈ successors ∧ f = frame)
        progress progress' ∧
      ∀ successor ∈ successors, (progress'.evaluation.instruction? successor).isSome ∧
        (options.allows successor = true →
          progress'.evaluation.Leads offset (recordedOffset successor) ∧
            progress'.evaluation.Receives successor frame) := by
  refine foldlM_along (Grows _ _) (fun successor (s : Progress) =>
    (s.evaluation.instruction? successor).isSome ∧ (options.allows successor = true →
      s.evaluation.Leads offset (recordedOffset successor) ∧
        s.evaluation.Receives successor frame)) (Grows.refl _ _) Grows.trans ?_ ?_ h
  · rintro successor s s' ⟨hi, hq⟩ hg
    refine ⟨by rwa [hg.instruction?], fun ha => ?_⟩
    exact ⟨hg.leads _ _ (hq ha).1, hg.receives (hq ha).2⟩
  · intro s successor s' hmem hs
    split at hs
    · cases hs
    · rename_i hsome
      have hsome' : (s.evaluation.instruction? successor).isSome := by
        simpa [Option.isSome_iff_ne_none] using hsome
      split at hs
      · rename_i hskip
        cases hs
        refine ⟨.refl _ _ _, hsome', fun ha => ?_⟩
        simp [ha] at hskip
      · rename_i hallowed
        have hallowed' : options.allows successor = true := by simpa using hallowed
        obtain ⟨evaluation, he, hs⟩ := Except.bind_eq_ok.mp hs
        obtain ⟨evaluation', he', hs⟩ := Except.bind_eq_ok.mp hs
        obtain ⟨hedge, hleads⟩ := grows_recordEdge he he'
        obtain ⟨hmerge, hr⟩ := merge_spec (fun o s => o = offset ∧ ∃ successor ∈ successors,
          options.allows successor = true ∧ s = recordedOffset successor)
          (fun o f => o ∈ successors ∧ f = frame) ⟨hmem, rfl⟩ hs
        have hg := Grows.trans (hedge.mono (fun o s ho => ⟨ho.1, successor, hmem, hallowed', ho.2⟩)
          fun _ _ h => h.elim) hmerge
        refine ⟨hg, by rwa [hg.instruction?], fun _ => ⟨hmerge.leads _ _ hleads, hr⟩⟩

end Progress

namespace Evaluation

variable {options : EvaluationOptions} {pool : ConstantPool} {handlers : List Handler}
  {offset : Nat} {evaluation evaluation' : Evaluation}

/-- What was passed on stays passed on. -/
theorem Settled.transfer {before : Frame} {instruction : Instruction} {step : Step}
    (h : evaluation.Settled options pool handlers offset before instruction step)
    (hlisting : evaluation'.listing = evaluation.listing)
    (htraced : evaluation'.isTraced offset = true)
    (hafter : evaluation'.after? offset = evaluation.after? offset)
    (hleads : ∀ successor, evaluation.Leads offset successor → evaluation'.Leads offset successor)
    (hreceives : ∀ o frame, evaluation.Receives o frame → evaluation'.Receives o frame) :
    evaluation'.Settled options pool handlers offset before instruction step where
  listed := by rw [instruction?, hlisting, ← instruction?, h.listed]
  execute := by rw [nextOffset, hlisting, ← nextOffset, h.execute]
  traced := htraced
  after := hafter.trans h.after
  boundary successor hs := by
    rw [instruction?, hlisting]
    exact h.boundary successor hs
  successors successor hs ha :=
    ⟨hleads _ (h.successors successor hs ha).1, hreceives _ _ (h.successors successor hs ha).2⟩
  handlers handler hh hc ha := by
    rw [instruction?, hlisting]
    exact ⟨(h.handlers handler hh hc ha).1, hreceives _ _ (h.handlers handler hh hc ha).2⟩

theorem mem_of_mem_assign {key value : Nat} {entries : List (Nat × Nat)} {x : Nat}
    (h : x ∈ (assign key value entries).map (·.2)) : x = value ∨ x ∈ entries.map (·.2) := by
  induction entries with
  | nil => simpa [assign] using h
  | cons entry rest ih =>
    rw [assign] at h
    split at h
    · simp only [List.map_cons, List.mem_cons] at h ⊢
      tauto
    · simp only [List.map_cons, List.mem_cons] at h ⊢
      tauto

/-- A call of an initializer is recorded only where there is one. -/
theorem mem_initializerCalls_of_note {method : Method} {event : Option Event} {call : Nat}
    (h : evaluation.note method offset event = .ok evaluation')
    (hc : call ∈ evaluation'.initializerCalls) :
    call ∈ evaluation.initializerCalls ∨
      call = offset ∧ ∃ receiver, event = some (.initialization receiver) := by
  unfold note at h
  split at h
  · split at h
    · cases h
      rcases List.mem_append.mp hc with hc | hc
      · rcases mem_of_mem_assign hc with rfl | hc
        · exact .inr ⟨rfl, _, rfl⟩
        · exact .inl (List.mem_append_left _ hc)
      · exact .inl (List.mem_append_right _ hc)
    · cases h
      exact .inl hc
  · split at h
    · cases h
      rcases List.mem_append.mp hc with hc | hc
      · exact .inl (List.mem_append_left _ hc)
      · obtain rfl : call = offset := by simpa using hc
        exact .inr ⟨rfl, _, rfl⟩
    · cases h
      exact .inl hc
  · cases h
    exact .inl hc
  · refine .inl (foldlM_invariant (fun (e : Evaluation) =>
      call ∈ e.initializerCalls → call ∈ evaluation.initializerCalls) ?_ id h hc)
    intro e entry e' _ he hs
    split at hs
    · obtain ⟨returning, -, hs⟩ := Except.bind_eq_ok.mp hs
      cases hs
      exact he
    · cases hs
      exact he
  · cases h
    exact .inl hc

/-- The call that is noted for an object creation is the latest call of an initializer on its
object. -/
theorem initialization?_of_note {method : Method} {event : Option Event}
    (h : evaluation.note method offset event = .ok evaluation') (created : Nat) :
    evaluation'.initialization? created =
      if event = some (.initialization (some (.instruction created))) ∧
          (evaluation.instruction? created).map (·.operation) = some .newObject then some offset
      else evaluation.initialization? created := by
  unfold note at h
  split at h
  · rename_i other
    split at h
    · rename_i hnew
      cases h
      rw [initialization?, lookup_assign]
      by_cases heq : created = other
      · subst heq
        simp [hnew]
      · have hne : ¬ other = created := fun h => heq h.symm
        simp [heq, hne, initialization?]
    · rename_i hnew
      cases h
      rw [if_neg]
      rintro ⟨hevent, hop⟩
      cases hevent
      exact hnew hop
  · split at h <;> cases h <;> simp [initialization?]
  · cases h
    simp [initialization?]
  · refine foldlM_invariant (fun (e : Evaluation) =>
      e.initialization? created = _) ?_ (by simp) h
    intro e entry e' _ he hs
    split at hs
    · obtain ⟨returning, -, hs⟩ := Except.bind_eq_ok.mp hs
      cases hs
      exact he
    · cases hs
      exact he
  · rename_i hother _ _ _
    cases h
    rw [if_neg]
    rintro ⟨rfl, -⟩
    exact hother created rfl

/-- Notes leave the frames and edges alone. -/
theorem note_eq_ok {method : Method} {event : Option Event}
    (h : evaluation.note method offset event = .ok evaluation') :
    evaluation'.listing = evaluation.listing ∧ evaluation'.sites = evaluation.sites ∧
      evaluation'.traced = evaluation.traced := by
  unfold note at h
  split at h
  · split at h <;> cases h <;> exact ⟨rfl, rfl, rfl⟩
  · split at h <;> cases h <;> exact ⟨rfl, rfl, rfl⟩
  · cases h
    exact ⟨rfl, rfl, rfl⟩
  · refine foldlM_invariant (fun (e : Evaluation) => e.listing = evaluation.listing ∧
      e.sites = evaluation.sites ∧ e.traced = evaluation.traced) ?_ ⟨rfl, rfl, rfl⟩ h
    intro e entry e' _ he hs
    split at hs
    · obtain ⟨returning, -, hs⟩ := Except.bind_eq_ok.mp hs
      cases hs
      exact he
    · cases hs
      exact he
  · cases h
    exact ⟨rfl, rfl, rfl⟩

end Evaluation

namespace Progress

variable {options : EvaluationOptions} {pool : ConstantPool} {method : Method}
  {handlers : List Handler} {offset : Nat} {progress progress' : Progress}

/-- What a visit of `offset` does: it is counted, its outcome is passed on, frames only grow, an
offset becomes pending exactly if its frame is new or changed, and the only new edges lead from
`offset` to the successors of the step. -/
structure Visited (options : EvaluationOptions) (pool : ConstantPool) (handlers : List Handler)
    (offset : Nat) (before : Frame) (instruction : Instruction) (step : Step)
    (old new : Progress) : Prop where
  recorded : old.evaluation.before? offset = some before
  settled : new.evaluation.Settled options pool handlers offset before instruction step
  listing : new.evaluation.listing = old.evaluation.listing
  sites : new.evaluation.sites.size = old.evaluation.sites.size
  visits : ∀ n ∈ new.visits, ∃ m ∈ old.visits, n ≤ m + 1
  traced : ∀ o, new.evaluation.isTraced o = (decide (o = offset) || old.evaluation.isTraced o)
  calls : ∀ call ∈ new.evaluation.initializerCalls, call ∈ old.evaluation.initializerCalls ∨
    call = offset ∧ ∃ receiver, step.event = some (.initialization receiver)
  initializations : ∀ created, new.evaluation.initialization? created =
    if step.event = some (.initialization (some (.instruction created))) ∧
        (old.evaluation.instruction? created).map (·.operation) = some .newObject then some offset
    else old.evaluation.initialization? created
  after : ∀ o, o ≠ offset → new.evaluation.after? o = old.evaluation.after? o
  receives : ∀ o frame, old.evaluation.Receives o frame → new.evaluation.Receives o frame
  joined : ∀ o frame, old.evaluation.before? o = some frame →
    ∃ frame', new.evaluation.before? o = some frame' ∧ ReflTransGen Frame.JoinsTo frame frame'
  changed : ∀ o frame, new.evaluation.before? o = some frame →
    old.evaluation.before? o = some frame ∨ o ∈ new.pending.elements
  entered : ∀ o ∈ new.pending.elements, o ∈ old.pending.elements ∨
    ∃ frame', new.evaluation.before? o = some frame' ∧
      ∀ frame, old.evaluation.before? o = some frame → TransGen Frame.JoinsTo frame frame'
  pending : ∀ o ∈ old.pending.elements, o ∈ new.pending.elements
  leads : ∀ o s, old.evaluation.Leads o s → new.evaluation.Leads o s
  edges : ∀ o s, new.evaluation.Leads o s → old.evaluation.Leads o s ∨ o = offset ∧
    ∃ successor ∈ step.successors, options.allows successor = true ∧ s = recordedOffset successor
  frames : ∀ P : Nat → Frame → Prop, new.evaluation.JoinClosed P →
    (∀ successor ∈ step.successors, new.evaluation.Receives successor step.frame →
      P successor step.frame) →
    (∀ handler ∈ handlers, handler.covers offset = true →
      new.evaluation.Receives handler.target
          (handlerFrame options.detail handler.target before.locals) →
        P handler.target (handlerFrame options.detail handler.target before.locals)) →
    (∀ o frame, old.evaluation.before? o = some frame → P o frame) →
    ∀ o frame, new.evaluation.before? o = some frame → P o frame

/-- Recording the frame after an instruction leaves everything else alone. -/
theorem setAfter_spec {evaluation evaluation' : Evaluation} {frame : Frame}
    (h : evaluation.modifySite offset (fun site => { site with after := some frame })
      = .ok evaluation') :
    evaluation'.listing = evaluation.listing ∧
      evaluation'.sites.size = evaluation.sites.size ∧ evaluation'.traced = evaluation.traced ∧
      evaluation'.initializerCalls = evaluation.initializerCalls ∧
      evaluation'.initializations = evaluation.initializations ∧
      (∀ o, evaluation'.before? o = evaluation.before? o) ∧
      (∀ o, evaluation'.after? o = if o = offset then some frame else evaluation.after? o) ∧
      ∀ o s, evaluation'.Leads o s ↔ evaluation.Leads o s := by
  obtain ⟨hlt, rfl⟩ := Evaluation.modifySite_eq_ok h
  have hsite (o : Nat) : (evaluation.sites.modify offset
      (fun site => { site with after := some frame }))[o]? =
      if offset = o then evaluation.sites[o]?.map (fun site => { site with after := some frame })
      else evaluation.sites[o]? :=
    Array.getElem?_modify
  refine ⟨rfl, Array.size_modify, rfl, rfl, rfl, fun o => ?_, fun o => ?_, fun o s => ?_⟩
  · simp only [Evaluation.before?, hsite]
    split
    · cases evaluation.sites[o]? <;> rfl
    · rfl
  · simp only [Evaluation.after?, hsite, eq_comm]
    split
    · rename_i heq
      subst heq
      rw [Array.getElem?_eq_getElem hlt]
      rfl
    · rfl
  · simp only [Evaluation.Leads, hsite]
    split
    · cases evaluation.sites[o]? <;> simp
    · rfl

theorem count_eq_ok {limit : Nat} (h : progress.count offset limit = .ok progress') :
    progress'.evaluation = progress.evaluation ∧ progress'.pending = progress.pending ∧
      ∀ n ∈ progress'.visits, ∃ m ∈ progress.visits, n ≤ m + 1 := by
  obtain ⟨visits, hvisits, h⟩ := Except.bind_eq_ok.mp h
  split at h
  · cases h
  · cases h
    refine ⟨rfl, rfl, fun n hn => ?_⟩
    rcases Array.mem_or_eq_of_mem_setIfInBounds hn with hold | rfl
    · exact ⟨n, hold, Nat.le_succ n⟩
    · exact ⟨visits, Array.mem_of_getElem? (orFail_eq_ok.mp hvisits), Nat.le_refl _⟩

/-- **What one visit does.** -/
theorem visit_spec (h : progress.visit options pool method handlers offset = .ok progress') :
    ∃ before instruction step,
      Visited options pool handlers offset before instruction step progress progress' := by
  obtain ⟨counted, hcount, h⟩ := Except.bind_eq_ok.mp h
  obtain ⟨heval, hpend, hvisits⟩ := count_eq_ok hcount
  obtain ⟨instruction, hi, h⟩ := Except.bind_eq_ok.mp h
  obtain ⟨before, hb, h⟩ := Except.bind_eq_ok.mp h
  obtain ⟨step, hexec, h⟩ := Except.bind_eq_ok.mp h
  obtain ⟨traced, htraced, h⟩ := Except.bind_eq_ok.mp h
  obtain ⟨noted, hnote, h⟩ := Except.bind_eq_ok.mp h
  obtain ⟨handled, hhandle, h⟩ := Except.bind_eq_ok.mp h
  obtain ⟨entered, henter, h⟩ := Except.bind_eq_ok.mp h
  obtain ⟨evaluation, hafter, h⟩ := Except.bind_eq_ok.mp h
  cases h
  rw [orDefect_eq_ok] at hi hb
  rw [heval] at hi hb hexec htraced hnote
  obtain ⟨hlist, hsites, htr⟩ := Evaluation.note_eq_ok hnote
  obtain ⟨-, -, hcontains⟩ := IndexSet.add_eq_ok htraced
  obtain ⟨hgrow₁, hhandlers⟩ := enterHandlers_spec
    (fun o s => o = offset ∧ ∃ successor ∈ step.successors, options.allows successor = true ∧
      s = recordedOffset successor) hhandle
  obtain ⟨hgrow₂, hsuccessors⟩ := enterSuccessors_spec henter
  obtain ⟨hal, has, hat, hac, hai, hab, haa, hae⟩ := setAfter_spec hafter
  have hgrow := (hgrow₁.mono (fun _ _ h => h) fun _ _ h => Or.inl h).trans
    (hgrow₂.mono (fun _ _ h => h) fun _ _ h => Or.inr h)
  have hbefore₀ (o : Nat) : noted.before? o = progress.evaluation.before? o := by
    simp only [Evaluation.before?, hsites]
  have hreceives₀ (o : Nat) (frame : Frame) :
      noted.Receives o frame ↔ progress.evaluation.Receives o frame := by
    simp only [Evaluation.Receives, hbefore₀]
  have hreceives₁ (o : Nat) (frame : Frame) :
      evaluation.Receives o frame ↔ entered.evaluation.Receives o frame := by
    simp only [Evaluation.Receives, hab]
  have hleads₀ (o s : Nat) : noted.Leads o s ↔ progress.evaluation.Leads o s := by
    simp only [Evaluation.Leads, hsites]
  have hlisting : evaluation.listing = progress.evaluation.listing :=
    hal.trans (hgrow.listing.trans hlist)
  have hsize : evaluation.sites.size = progress.evaluation.sites.size :=
    has.trans (hgrow.sites.trans (congrArg Array.size hsites))
  have hinst (o : Nat) : evaluation.instruction? o = entered.evaluation.instruction? o := by
    rw [Evaluation.instruction?, hal, ← Evaluation.instruction?]
  have htracedAll (o : Nat) :
      evaluation.isTraced o = (decide (o = offset) || progress.evaluation.isTraced o) := by
    simp only [Evaluation.isTraced, hat, hgrow.traced, htr, hcontains]
  have hsettled : evaluation.Settled options pool handlers offset before instruction step := {
    listed := by rw [Evaluation.instruction?, hlisting, ← Evaluation.instruction?, hi]
    execute := by
      rw [Evaluation.nextOffset, hlisting, ← Evaluation.nextOffset]
      exact hexec
    traced := by simp [htracedAll]
    after := by simp [haa]
    boundary := fun successor hs => by
      rw [hinst]
      exact (hsuccessors successor hs).1
    successors := fun successor hs ha => by
      obtain ⟨hl, hr⟩ := (hsuccessors successor hs).2 ha
      exact ⟨(hae _ _).mpr hl, (hreceives₁ _ _).mpr hr⟩
    handlers := fun handler hh hc ha => by
      obtain ⟨hs, hr⟩ := hhandlers handler hh hc ha
      rw [hinst, hgrow₂.instruction?]
      exact ⟨hs, (hreceives₁ _ _).mpr (hgrow₂.receives hr)⟩ }
  refine ⟨before, instruction, step, {
    recorded := hb
    settled := hsettled
    listing := hlisting
    sites := hsize
    visits := hgrow.visits ▸ hvisits
    traced := htracedAll
    pending := fun o ho => hgrow.pending o (by rwa [hpend])
    leads := fun o s hl => (hae o s).mpr (hgrow.leads o s ((hleads₀ o s).mpr hl))
    edges := fun o s hl => (hgrow.edges o s ((hae o s).mp hl)).imp_left (hleads₀ o s).mp
    receives := fun o frame hr =>
      (hreceives₁ o frame).mpr (hgrow.receives ((hreceives₀ o frame).mpr hr))
    calls := ?calls
    initializations := ?initializations
    after := ?after
    joined := ?joined
    changed := ?changed
    entered := ?entered
    frames := ?frames }⟩
  case calls =>
    intro call hc
    have hnoted : call ∈ noted.initializerCalls := by
      rw [← show entered.evaluation.initializerCalls = noted.initializerCalls from hgrow.calls, ← hac]
      exact hc
    have hnew := Evaluation.mem_initializerCalls_of_note hnote hnoted
    exact hnew
  case initializations =>
    intro created
    have hnoted := Evaluation.initialization?_of_note hnote created
    rw [Evaluation.initialization?, hai, hgrow.initializations, ← Evaluation.initialization?]
    exact hnoted
  case after =>
    intro o ho
    rw [haa, if_neg ho, hgrow.after]
    simp only [Evaluation.after?, hsites]
  case joined =>
    intro o frame ho
    obtain ⟨frame', hframe', hjoins⟩ := hgrow.before o frame ((hbefore₀ o).trans ho)
    exact ⟨frame', (hab o).trans hframe', hjoins⟩
  case changed =>
    intro o frame ho
    simp only at ho
    rw [hab] at ho
    exact (hgrow.changed o frame ho).imp_left fun h => (hbefore₀ o).symm.trans h
  case entered =>
    intro o ho
    refine (hgrow.entered o ho).imp (fun h => hpend ▸ h) fun ⟨frame', hframe', hjoins⟩ => ?_
    exact ⟨frame', (hab o).trans hframe', fun frame hf => hjoins frame ((hbefore₀ o).trans hf)⟩
  case frames =>
    intro P hjoin hsuccessor hhandler hold o frame ho
    refine hgrow.frames P ?_ ?_ ?_ o frame ((hab o).symm.trans ho)
    · exact fun o x y z hx hy hz hr => hjoin o x y z hx hy hz ((hreceives₁ o z).mpr hr)
    · rintro o f (⟨handler, hh, hc, rfl, rfl⟩ | ⟨hs, rfl⟩) hr
      · exact hhandler handler hh hc ((hreceives₁ _ _).mpr hr)
      · exact hsuccessor o hs ((hreceives₁ _ _).mpr hr)
    · exact fun o f hf => hold o f ((hbefore₀ o).symm.trans hf)

/-! ## The whole iteration -/

/-- What the iteration keeps: an offset with a frame is pending or settled, and only such offsets are
traced. -/
structure Invariant (options : EvaluationOptions) (pool : ConstantPool) (handlers : List Handler)
    (progress : Progress) : Prop where
  settled : ∀ offset before, progress.evaluation.before? offset = some before →
    offset ∈ progress.pending.elements ∨ ∃ instruction step,
      progress.evaluation.Settled options pool handlers offset before instruction step
  traced : ∀ offset, progress.evaluation.isTraced offset = true →
    (progress.evaluation.before? offset).isSome

/-- A visit keeps the invariant, except that its offset need not have been pending. -/
theorem Visited.invariant {before : Frame} {instruction : Instruction} {step : Step}
    {pending : OffsetSet} (h : Visited options pool handlers offset before instruction step
      { progress with pending := pending } progress')
    (hpending : ∀ o ∈ progress.pending.elements, o = offset ∨ o ∈ pending.elements)
    (hinv : progress.Invariant options pool handlers) :
    progress'.Invariant options pool handlers where
  settled o frame ho := by
    rcases h.changed o frame ho with hold | hp
    · by_cases heq : o = offset
      · subst heq
        cases hold.symm.trans h.recorded
        exact .inr ⟨instruction, step, h.settled⟩
      · rcases hinv.settled o frame hold with hp | ⟨instruction', step', hs⟩
        · exact .inl (h.pending o ((hpending o hp).resolve_left heq))
        · refine .inr ⟨instruction', step', hs.transfer h.listing ?_ (h.after o heq)
            (h.leads o) h.receives⟩
          rw [h.traced]
          simpa using .inr hs.traced
    · exact .inl hp
  traced o ho := by
    have hold : (progress.evaluation.before? o).isSome := by
      rw [h.traced] at ho
      rcases Bool.or_eq_true_iff.mp ho with ho | ho
      · rw [of_decide_eq_true ho]
        exact Option.isSome_iff_exists.mpr ⟨before, h.recorded⟩
      · exact hinv.traced o ho
    obtain ⟨frame, hf⟩ := Option.isSome_iff_exists.mp hold
    obtain ⟨frame', hf', -⟩ := h.receives o frame ⟨frame, hf, frame.covers_refl⟩
    exact Option.isSome_iff_exists.mpr ⟨frame', hf'⟩

/-- The course of an iteration within a bound: offsets are visited until none is pending. -/
inductive Iterates (options : EvaluationOptions) (pool : ConstantPool) (method : Method)
    (handlers : List Handler) : Nat → Progress → Progress → Prop where
  | done {bound : Nat} {progress : Progress} (hpop : progress.pending.popFirst? = none) :
      Iterates options pool method handlers bound progress progress
  | visit {bound offset : Nat} {rest : OffsetSet} {progress visited last : Progress}
      (hpop : progress.pending.popFirst? = some (offset, rest))
      (hvisit : visit options pool method handlers offset { progress with pending := rest } =
        .ok visited)
      (hrest : Iterates options pool method handlers bound visited last) :
      Iterates options pool method handlers (bound + 1) progress last

theorem iterates_of_iterate {bound : Nat} {evaluation : Evaluation}
    (h : progress.iterate options pool method handlers bound = .ok evaluation) :
    ∃ last, progress.Iterates options pool method handlers bound last ∧
      last.evaluation = evaluation := by
  induction bound generalizing progress with
  | zero =>
    rw [iterate] at h
    split at h
    · rename_i hpop
      cases h
      exact ⟨progress, .done hpop, rfl⟩
    · cases h
  | succ bound ih =>
    rw [iterate] at h
    split at h
    · rename_i hpop
      cases h
      exact ⟨progress, .done hpop, rfl⟩
    · rename_i offset rest hpop
      obtain ⟨visited, hvisit, h⟩ := Except.bind_eq_ok.mp h
      obtain ⟨last, hrest, hlast⟩ := ih h
      exact ⟨last, .visit hpop hvisit hrest, hlast⟩

/-- Only the offset that is taken from the pending ones stops being pending. -/
theorem pending_of_popFirst? {rest : OffsetSet}
    (hpop : progress.pending.popFirst? = some (offset, rest)) :
    ∀ o ∈ progress.pending.elements, o = offset ∨ o ∈ rest.elements := by
  rw [OrderedSet.elements_of_popFirst?_eq_some hpop]
  exact fun o ho => List.mem_cons.mp ho

/-- **An iteration ends with nothing pending**, and only adds to what was received. -/
theorem Iterates.spec {bound : Nat} {last : Progress}
    (h : progress.Iterates options pool method handlers bound last)
    (hinv : progress.Invariant options pool handlers) :
    last.pending.elements = [] ∧ last.Invariant options pool handlers ∧
      last.evaluation.listing = progress.evaluation.listing ∧
      ∀ offset frame, progress.evaluation.Receives offset frame →
        last.evaluation.Receives offset frame := by
  induction h with
  | done hpop =>
    exact ⟨OrderedSet.elements_of_popFirst?_eq_none hpop, hinv, rfl, fun _ _ h => h⟩
  | visit hpop hvisit _ ih =>
    obtain ⟨before, instruction, step, hvisited⟩ := visit_spec hvisit
    obtain ⟨hpending, hlast, hlisting, hreceives⟩ :=
      ih (hvisited.invariant (pending_of_popFirst? hpop) hinv)
    exact ⟨hpending, hlast, hlisting.trans hvisited.listing,
      fun o frame ho => hreceives o frame (hvisited.receives o frame ho)⟩

end Progress

namespace Evaluation

/-- Whether nothing is left to pass on: the offsets with a frame are the traced ones, and all of them
are settled. -/
structure Closed (evaluation : Evaluation) (options : EvaluationOptions) (pool : ConstantPool)
    (handlers : List Handler) : Prop where
  settled : ∀ offset before, evaluation.before? offset = some before →
    ∃ instruction step, evaluation.Settled options pool handlers offset before instruction step
  traced : ∀ offset, evaluation.isTraced offset = true → (evaluation.before? offset).isSome

end Evaluation

theorem Evaluation.before?_blank (listing : Listing) (offset : Nat) :
    (blank listing).before? offset = none := by
  simp only [before?, blank, Array.getElem?_replicate]
  split <;> rfl

theorem Evaluation.after?_blank (listing : Listing) (offset : Nat) :
    (blank listing).after? offset = none := by
  simp only [after?, blank, Array.getElem?_replicate]
  split <;> rfl

theorem Evaluation.not_leads_blank (listing : Listing) (offset successor : Nat) :
    ¬ (blank listing).Leads offset successor := by
  rintro ⟨site, hs, hm⟩
  simp only [blank, Array.getElem?_replicate] at hs
  split at hs
  · cases hs
    cases hm
  · cases hs

theorem Progress.invariant_blank (options : EvaluationOptions) (pool : ConstantPool)
    (handlers : List Handler) (listing : Listing) (visits : Array Nat) :
    Progress.Invariant options pool handlers ⟨.blank listing, .empty, visits⟩ where
  settled offset before h := by
    rw [Evaluation.before?_blank] at h
    cases h
  traced offset h := by
    simp [Evaluation.isTraced, Evaluation.blank] at h

/-- The invariant holds when the frame at the entry has been merged. -/
theorem Progress.invariant_start (options : EvaluationOptions) (pool : ConstantPool)
    (handlers : List Handler) {listing : Listing} {visits : Array Nat} {frame : Frame}
    {start : Progress}
    (h : merge ⟨.blank listing, OrderedSet.empty, visits⟩ 0 frame = .ok start) :
    start.Invariant options pool handlers := by
  obtain ⟨hgrows, -⟩ := merge_spec (fun _ _ => False) (fun _ _ => True) trivial h
  refine ⟨fun offset before hb => ?_, fun offset ht => ?_⟩
  · rcases hgrows.changed offset before hb with hb | hb
    · rw [Evaluation.before?_blank] at hb
      cases hb
    · exact .inl hb
  · rw [Evaluation.isTraced, hgrows.traced] at ht
    simp [Evaluation.blank] at ht

variable {options : EvaluationOptions} {pool : ConstantPool} {owner : String} {method : Method}
  {code : Code} {evaluation : Evaluation}

/-- The course of an evaluation: a body without code is not visited at all; otherwise the frame at
the entry is passed on first. -/
inductive Evaluates (options : EvaluationOptions) (pool : ConstantPool) (owner : String)
    (method : Method) (code : Code) : Evaluation → Prop where
  | blank {listing : Listing} (hlisting : Listing.ofCode code.bytes = .ok listing)
      (hnone : (decide (listing.size = 0) || !options.allows 0) = true) :
      Evaluates options pool owner method code (.blank listing)
  | visits {listing : Listing} {locals : Locals} {start last : Progress}
      (hlisting : Listing.ofCode code.bytes = .ok listing)
      (hsome : ¬(decide (listing.size = 0) || !options.allows 0) = true)
      (hlocals : entryLocals options owner method code.maxLocals = .ok locals)
      (hstart : Progress.merge ⟨.blank listing, OrderedSet.empty, Array.replicate listing.size 0⟩ 0
        ⟨locals, Stack.empty⟩ = .ok start)
      (hiterates : start.Iterates options pool method code.handlers
        (listing.size * options.maxVisits + 1) last) :
      Evaluates options pool owner method code last.evaluation

/-- **There is no other course of an evaluation.** -/
theorem evaluates_of_evaluate (h : evaluate options pool owner method code = .ok evaluation) :
    Evaluates options pool owner method code evaluation := by
  obtain ⟨listing, hlisting, h⟩ := Except.bind_eq_ok.mp h
  simp only at h
  split at h
  · rename_i hnone
    cases h
    exact .blank hlisting hnone
  · rename_i hsome
    obtain ⟨locals, hlocals, h⟩ := Except.bind_eq_ok.mp h
    obtain ⟨start, hstart, h⟩ := Except.bind_eq_ok.mp h
    obtain ⟨last, hiterates, rfl⟩ := Progress.iterates_of_iterate h
    exact .visits hlisting hsome hlocals hstart hiterates

/-- **The evaluation of a body is closed**, and the frame before the first instruction covers the
frame that the body is entered with. -/
theorem closed_of_evaluate (h : evaluate options pool owner method code = .ok evaluation) :
    evaluation.Closed options pool code.handlers ∧
      Listing.ofCode code.bytes = .ok evaluation.listing ∧
      (code.bytes ≠ [] → options.allows 0 = true → ∃ locals,
        entryLocals options owner method code.maxLocals = .ok locals ∧
          evaluation.Receives 0 ⟨locals, Stack.empty⟩) := by
  cases evaluates_of_evaluate h with
  | @blank listing hlisting hnone =>
    have hinv := Progress.invariant_blank options pool code.handlers listing #[]
    refine ⟨⟨fun offset before hb => ?_, hinv.traced⟩, hlisting, fun hne ha => ?_⟩
    · exact (hinv.settled offset before hb).resolve_left (by simp)
    · simp only [ha, Listing.size_of_ofCode hlisting, Bool.not_true, Bool.or_false,
        decide_eq_true_eq, List.length_eq_zero_iff] at hnone
      exact absurd hnone hne
  | @visits listing locals start last hlisting _ hlocals hstart hiterates =>
    obtain ⟨hgrows, hr⟩ := Progress.merge_spec (fun _ _ => False) (fun _ _ => True) trivial
      hstart
    have hinv := Progress.invariant_start options pool code.handlers hstart
    obtain ⟨hpending, hlast, hlist, hreceives⟩ := hiterates.spec hinv
    refine ⟨⟨fun offset before hb => ?_, hlast.traced⟩, ?_,
      fun _ _ => ⟨locals, hlocals, hreceives _ _ hr⟩⟩
    · refine (hlast.settled offset before hb).resolve_left ?_
      simp [hpending]
    · rw [hlist, hgrows.listing]
      exact hlisting

end JvmTrim
