import JvmTrim.Proofs.Descent
import JvmTrim.Proofs.Iteration
import JvmTrim.Proofs.Overapproximation

/-!
# The iteration ends by itself

The options limit how often an offset is visited, and an evaluation fails when the limit is reached.
No body needs that: with a limit that is high enough, which depends on the body, an evaluation gives
what it gives with every higher one.

An offset becomes pending only when the frame before it is new or has lost something. Each visit
takes an offset from the pending ones, so it leaves fewer offsets without a frame, or frames that
have less to lose, or fewer pending offsets than before. The visits of one offset execute on frames
each of which has lost something against the one before.

What a visit does depends on the limit only in whether the visit is made. So all runs with a high
limit are the same run, whether it ends with a result or with a failure, and that failure is not the
limit.

## Main definitions

* `EvaluationOptions.withLimit`: the same options with another limit
* `Progress.Below`: states of an iteration whose frames have a finite amount to lose
* `Progress.Settles`: an iteration that ends by itself

## Main results

* `Progress.Visited.lowers`: a visit leaves less to do
* `Progress.exists_settles`: every iteration ends by itself
* `Progress.pairwise_trail`: what the visits of one offset execute on
* `evaluate_settles`: an evaluation does not depend on the limit once it is high enough
-/

namespace JvmTrim

open Relation (ReflTransGen TransGen)

/-- The same options with another limit on the visits of an offset. -/
def EvaluationOptions.withLimit (options : EvaluationOptions) (limit : Nat) : EvaluationOptions :=
  { options with maxVisits := limit }

/-! ## Failures other than the limit -/

/-- Whether a failure is none because of the limit on visits. -/
def Failure.Unlimited (failure : Failure) : Prop :=
  ∀ offset limit, failure ≠ .visitLimit offset limit

theorem Failure.unlimited_fault (fault : Fault) : (Failure.fault fault).Unlimited :=
  fun _ _ h => by cases h

theorem Ordinary.unlimited {α : Type} {x : Except Failure α} (h : Ordinary x) :
    FailsOnly Failure.Unlimited x :=
  h.mono fun _ hordinary _ _ heq => by cases heq ▸ hordinary

theorem IndexSet.unlimited_add (set : IndexSet) (index : Nat) :
    FailsOnly Failure.Unlimited (set.add index) := by
  refine FailsOnly.map ?_ _
  unfold insert
  split
  · exact .ok _
  · exact .error (Failure.unlimited_fault _)

namespace Evaluation

variable (evaluation : Evaluation)

theorem unlimited_modifySite (offset : Nat) (change : Site → Site) :
    FailsOnly Failure.Unlimited (evaluation.modifySite offset change) :=
  .ite (fun _ => .ok _) fun _ => .error (Failure.unlimited_fault _)

theorem unlimited_note (method : Method) (offset : Nat) (event : Option Event) :
    FailsOnly Failure.Unlimited (evaluation.note method offset event) := by
  unfold note
  split
  case h_1 | h_2 => exact .ite (fun _ => .ok _) fun _ => .ok _
  case h_4 =>
    refine .foldlM fun middle o _ => ?_
    split
    · exact (IndexSet.unlimited_add _ _).bind fun _ _ => .ok _
    · exact .ok _
  all_goals exact .ok _

end Evaluation

namespace Progress

variable {options : EvaluationOptions} {pool : ConstantPool} {method : Method}
  {handlers : List Handler} {offset : Nat} {rest : OffsetSet} {progress : Progress}

theorem unlimited_merge (progress : Progress) (offset : Nat) (frame : Frame) :
    FailsOnly Failure.Unlimited (progress.merge offset frame) := by
  unfold merge
  split
  · exact (ordinary_joinAt _ _ _).unlimited.bind fun _ _ => .ite (fun _ => .ok _) fun _ =>
      (Evaluation.unlimited_modifySite _ _ _).bind fun _ _ => .ok _
  · exact (Evaluation.unlimited_modifySite _ _ _).bind fun _ _ => .ok _

theorem unlimited_enterHandlers (progress : Progress) (locals : Locals) :
    FailsOnly Failure.Unlimited
      (progress.enterHandlers options handlers offset locals) :=
  .foldlM fun _ _ _ => .ite (fun _ => .ok _) fun _ =>
    .ite (fun _ => (Ordinary.error rfl).unlimited) fun _ => unlimited_merge _ _ _

theorem unlimited_enterSuccessors (progress : Progress) (successors : List Nat) (frame : Frame) :
    FailsOnly Failure.Unlimited
      (progress.enterSuccessors options successors offset frame) :=
  .foldlM fun _ _ _ => .ite (fun _ => (Ordinary.error rfl).unlimited) fun _ =>
    .ite (fun _ => .ok _) fun _ => (Evaluation.unlimited_modifySite _ _ _).bind fun _ _ =>
      (Evaluation.unlimited_modifySite _ _ _).bind fun _ _ => unlimited_merge _ _ _

/-- A visit that is within the limit fails for other reasons only. -/
theorem unlimited_visit (hread : progress.evaluation.listing.Read)
    (hcount : ∃ counted, progress.count offset options.maxVisits = .ok counted) :
    FailsOnly Failure.Unlimited (progress.visit options pool method handlers offset) := by
  obtain ⟨counted, hcount⟩ := hcount
  obtain ⟨hevaluation, -, -⟩ := count_eq_ok hcount
  have hread' : counted.evaluation.listing.Read := hevaluation ▸ hread
  unfold visit
  rw [hcount]
  refine (FailsOnly.ok counted).bind fun counted' hcounted => ?_
  cases hcounted
  refine (Ordinary.orDefect _ _).unlimited.bind fun instruction hinstruction => ?_
  refine (Ordinary.orDefect _ _).unlimited.bind fun before _ => ?_
  have hwellFormed := hread'.wellFormed offset instruction (orDefect_eq_ok.mp hinstruction)
  refine (Context.ordinary_execute _ _ _ _ hwellFormed).unlimited.bind fun step _ => ?_
  refine (IndexSet.unlimited_add _ _).bind fun traced _ => ?_
  refine (Evaluation.unlimited_note _ _ _ _).bind fun noted _ => ?_
  refine (unlimited_enterHandlers _ _).bind fun handled _ => ?_
  refine (unlimited_enterSuccessors _ _ _).bind fun entered _ => ?_
  exact (Evaluation.unlimited_modifySite _ _ _).bind fun _ _ => .ok _

/-! ## One visit for all limits -/

theorem count_of_lt {visits limit : Nat} (hvisits : progress.visits[offset]? = some visits)
    (hlt : visits < limit) : progress.count offset limit =
      .ok { progress with visits := progress.visits.setIfInBounds offset (visits + 1) } := by
  rw [count, hvisits]
  exact if_neg (Nat.not_lt.mpr hlt)

/-- What a visit did with some limit it does with others. -/
theorem Visited.withoutLimit {limit : Nat} {before : Frame} {instruction : Instruction}
    {step : Step} {old new : Progress}
    (h : Visited (options.withLimit limit) pool handlers offset before instruction step old new) :
    Visited options pool handlers offset before instruction step old new :=
  { h with
    settled := ⟨h.settled.listed, h.settled.execute, h.settled.traced, h.settled.after,
      h.settled.boundary, h.settled.successors, h.settled.handlers⟩ }

/-- Whether a visit has an outcome with every limit that allows it, and fails with the others. -/
structure Outcome (options : EvaluationOptions) (pool : ConstantPool) (method : Method)
    (handlers : List Handler) (offset : Nat) (progress : Progress)
    (outcome : Except Failure Progress) : Prop where
  unlimited : FailsOnly Failure.Unlimited outcome
  visited : ∀ next, outcome = .ok next → ∃ before instruction step,
    Visited options pool handlers offset before instruction step progress next
  visit : ∀ limit, progress.visit (options.withLimit limit) pool method handlers offset = outcome ∨
    (∃ failure, progress.visit (options.withLimit limit) pool method handlers offset
      = .error failure) ∧ ∃ n ∈ progress.visits, limit ≤ n

/-- **A visit has one outcome** for all limits that allow it. -/
theorem exists_outcome (options : EvaluationOptions) (pool : ConstantPool) (method : Method)
    (handlers : List Handler) (offset : Nat) (hread : progress.evaluation.listing.Read) :
    ∃ outcome, progress.Outcome options pool method handlers offset outcome := by
  cases hvisits : progress.visits[offset]? with
  | none =>
    refine ⟨.error (.fault .outOfRange), .error (Failure.unlimited_fault _), fun next h => ?_,
      fun limit => .inl ?_⟩
    · cases h
    · rw [visit, count, hvisits]
      rfl
  | some visits =>
    have hcount := count_of_lt hvisits (Nat.lt_succ_self visits)
    refine ⟨progress.visit (options.withLimit (visits + 1)) pool method handlers offset,
      unlimited_visit hread ⟨_, hcount⟩, fun next h => ?_, fun limit => ?_⟩
    · obtain ⟨before, instruction, step, hvisited⟩ := visit_spec h
      exact ⟨before, instruction, step, hvisited.withoutLimit⟩
    · by_cases hlt : visits < limit
      · refine .inl ?_
        have hcount' := count_of_lt hvisits hlt
        unfold visit
        change progress.count offset limit >>= _ = progress.count offset (visits + 1) >>= _
        rw [hcount, hcount']
        rfl
      · refine .inr ⟨⟨.visitLimit offset limit, ?_⟩, visits, Array.mem_of_getElem? hvisits,
          Nat.le_of_not_lt hlt⟩
        rw [visit, count, hvisits]
        change (if visits + 1 > limit then _ else _) >>= _ = _
        rw [if_pos (by omega)]
        rfl

/-! ## What is left to do -/

/-- Whether instructions were read and frames have `size` variables and sets below a bound. -/
structure Below (size bound : Nat) (progress : Progress) : Prop where
  read : progress.evaluation.listing.Read
  frames : ∀ offset frame, progress.evaluation.before? offset = some frame →
    frame.Below size bound

/-- How many offsets have no frame. -/
def missing (progress : Progress) : Nat :=
  remaining (fun offset => (progress.evaluation.before? offset).isSome)
    (List.range progress.evaluation.sites.size)

/-- What the frame before an offset can still lose. -/
def weightAt (bound : Nat) (progress : Progress) (offset : Nat) : Nat :=
  ((progress.evaluation.before? offset).map (Frame.weight bound)).getD 0

/-- What all frames together can still lose. -/
def weight (bound : Nat) (progress : Progress) : Nat :=
  ((List.range progress.evaluation.sites.size).map (progress.weightAt bound)).sum

theorem mem_range_of_before? {frame : Frame}
    (h : progress.evaluation.before? offset = some frame) :
    offset ∈ List.range progress.evaluation.sites.size := by
  obtain ⟨site, hsite, -⟩ := Option.bind_eq_some_iff.mp h
  exact List.mem_range.mpr (Array.getElem?_eq_some_iff.mp hsite).1

section Visit

variable {size bound : Nat} {before : Frame} {instruction : Instruction} {step : Step}
  {old new : Progress}

theorem Visited.below
    (h : Visited options pool handlers offset before instruction step old new)
    (hbound : 1 + 2 * UInt32.size ≤ bound)
    (hhandlers : ∀ handler ∈ handlers, 1 + handler.target < bound)
    (hold : old.Below size bound) : new.Below size bound := by
  refine ⟨h.listing ▸ hold.read, ?_⟩
  refine h.meets (frameInvariant_below hbound size) (fun handler hm origin ho => ?_) hold.frames
  rw [List.mem_singleton.mp ho]
  exact hhandlers handler hm

/-- A visit leaves a frame as it is, and then its offset is not made pending, or the frame loses
something. -/
theorem Visited.falls_or_eq
    (h : Visited options pool handlers offset before instruction step old new)
    (hold : old.Below size bound) (hnew : new.Below size bound) {o : Nat} {frame : Frame}
    (hframe : old.evaluation.before? o = some frame) :
    ∃ frame', new.evaluation.before? o = some frame' ∧
      (frame' = frame ∧ (o ∈ new.pending.elements → o ∈ old.pending.elements) ∨
        frame.Falls frame') := by
  obtain ⟨frame', hframe', hjoins⟩ := h.joined o frame hframe
  have hsize : frame'.locals.size = frame.locals.size :=
    (hnew.frames o frame' hframe').locals.1.trans (hold.frames o frame hframe).locals.1.symm
  refine ⟨frame', hframe', ?_⟩
  rcases Relation.reflTransGen_iff_eq_or_transGen.mp hjoins with heq | hjoins
  · by_cases hentered : o ∈ new.pending.elements → o ∈ old.pending.elements
    · exact .inl ⟨heq, hentered⟩
    · push Not at hentered
      obtain ⟨_, hlast, hall⟩ := (h.entered o hentered.1).resolve_left hentered.2
      cases hframe'.symm.trans hlast
      exact .inr (Frame.falls_of_joinsTo (hall frame hframe) hsize)
  · exact .inr (Frame.falls_of_joinsTo hjoins hsize)

/-- **A visit leaves less to do**: fewer offsets without a frame, or less to lose, or fewer pending
offsets. -/
theorem Visited.lowers
    (h : Visited options pool handlers offset before instruction step old new)
    (hold : old.Below size bound) (hnew : new.Below size bound) :
    new.missing < old.missing ∨ new.missing = old.missing ∧
      (new.weight bound < old.weight bound ∨ new.weight bound = old.weight bound ∧
        ∀ o ∈ new.pending.elements, o ∈ old.pending.elements) := by
  have hkept (o : Nat) (hsome : (old.evaluation.before? o).isSome = true) :
      (new.evaluation.before? o).isSome = true := by
    obtain ⟨frame, hframe⟩ := Option.isSome_iff_exists.mp hsome
    obtain ⟨frame', hframe', -⟩ := h.joined o frame hframe
    exact Option.isSome_iff_exists.mpr ⟨frame', hframe'⟩
  by_cases hadded : ∃ o frame, old.evaluation.before? o = none ∧
      new.evaluation.before? o = some frame
  · obtain ⟨o, frame, hnone, hframe⟩ := hadded
    have hmem := h.sites ▸ mem_range_of_before? hframe
    refine .inl ?_
    rw [missing, h.sites]
    exact remaining_lt hkept hmem (Option.isSome_eq_false_iff.mpr (hnone ▸ rfl))
      (Option.isSome_iff_exists.mpr ⟨frame, hframe⟩)
  · have hnone (o : Nat) (ho : old.evaluation.before? o = none) :
        new.evaluation.before? o = none := by
      by_contra hsome
      obtain ⟨frame, hframe⟩ := Option.ne_none_iff_exists'.mp hsome
      exact hadded ⟨o, frame, ho, hframe⟩
    have hsame (o : Nat) :
        (new.evaluation.before? o).isSome = (old.evaluation.before? o).isSome := by
      cases ho : old.evaluation.before? o with
      | none => rw [hnone o ho]
      | some frame => exact hkept o (Option.isSome_iff_exists.mpr ⟨frame, ho⟩)
    refine .inr ⟨by simp only [missing, h.sites, hsame], ?_⟩
    by_cases hfall : ∃ o frame frame', old.evaluation.before? o = some frame ∧
        new.evaluation.before? o = some frame' ∧ frame.Falls frame'
    · obtain ⟨o, frame, frame', hframe, hframe', hfalls⟩ := hfall
      refine .inl ?_
      rw [weight, h.sites]
      refine List.sum_lt_sum _ _ (fun o _ => ?_) ⟨o, mem_range_of_before? hframe, ?_⟩
      · cases ho : old.evaluation.before? o with
        | none => simp [weightAt, ho, hnone o ho]
        | some frame =>
          obtain ⟨frame', hframe', hcases⟩ := h.falls_or_eq hold hnew ho
          simp only [weightAt, ho, hframe', Option.map_some, Option.getD_some]
          rcases hcases with ⟨rfl, -⟩ | hfalls
          · exact Nat.le_refl _
          · exact hfalls.covers.weight_le hfalls.size_eq
      · simp only [weightAt, hframe, hframe', Option.map_some, Option.getD_some]
        exact hfalls.weight_lt (hnew.frames o frame' hframe')
    · have hunchanged (o : Nat) (frame : Frame) (ho : old.evaluation.before? o = some frame) :
          new.evaluation.before? o = some frame ∧
            (o ∈ new.pending.elements → o ∈ old.pending.elements) := by
        obtain ⟨frame', hframe', hcases⟩ := h.falls_or_eq hold hnew ho
        rcases hcases with ⟨rfl, hpending⟩ | hfalls
        · exact ⟨hframe', hpending⟩
        · exact absurd ⟨o, frame, frame', ho, hframe', hfalls⟩ hfall
      have hbefore (o : Nat) : new.evaluation.before? o = old.evaluation.before? o := by
        cases ho : old.evaluation.before? o with
        | none => exact hnone o ho
        | some frame => exact (hunchanged o frame ho).1
      refine .inr ⟨?_, fun o ho => ?_⟩
      · have hweight : new.weightAt bound = old.weightAt bound :=
          funext fun o => by rw [weightAt, hbefore, weightAt]
        rw [weight, h.sites, hweight, weight]
      · rcases h.entered o ho with hpending | ⟨frame', hframe', -⟩
        · exact hpending
        · exact (hunchanged o frame' ((hbefore o).symm.trans hframe')).2 ho

end Visit

/-! ## All visits -/

/-- Whether an iteration ends by itself, after at most so many visits and with one result for all
limits that allow them. -/
structure Settles (options : EvaluationOptions) (pool : ConstantPool) (method : Method)
    (handlers : List Handler) (progress : Progress) (steps : Nat)
    (result : Except Failure Evaluation) : Prop where
  unlimited : FailsOnly Failure.Unlimited result
  iterate : ∀ limit bound, (∀ n ∈ progress.visits, n + steps ≤ limit) → steps ≤ bound →
    progress.iterate (options.withLimit limit) pool method handlers bound = result
  length : ∀ limit bound,
    (progress.trail (options.withLimit limit) pool method handlers bound).length ≤ steps

theorem settles_of_empty (options : EvaluationOptions) (pool : ConstantPool) (method : Method)
    (handlers : List Handler) (hpop : progress.pending.popFirst? = none) :
    progress.Settles options pool method handlers 0 (.ok progress.evaluation) where
  unlimited := .ok _
  iterate limit bound _ _ := by
    rw [Progress.iterate]
    simp only [hpop]
  length limit bound := by
    cases bound with
    | zero => exact Nat.le_refl _
    | succ bound => simp [trail, hpop]

theorem iterate_succ {bound : Nat} (hpop : progress.pending.popFirst? = some (offset, rest)) :
    progress.iterate options pool method handlers (bound + 1) =
      visit options pool method handlers offset { progress with pending := rest } >>=
        iterate options pool method handlers bound := by
  rw [iterate]
  simp only [hpop]

/-- A visit that fails ends the trail. -/
theorem length_trail_of_error {bound : Nat} {failure : Failure}
    (hpop : progress.pending.popFirst? = some (offset, rest))
    (hv : visit options pool method handlers offset { progress with pending := rest }
      = .error failure) :
    (progress.trail options pool method handlers (bound + 1)).length ≤ 1 := by
  simp only [trail, hpop, hv, List.append_nil, List.length_map]
  cases progress.evaluation.before? offset <;> simp

theorem settles_of_error {failure : Failure}
    (hpop : progress.pending.popFirst? = some (offset, rest))
    (h : Outcome options pool method handlers offset { progress with pending := rest }
      (.error failure)) :
    progress.Settles options pool method handlers 1 (.error failure) where
  unlimited := .error (h.unlimited failure rfl)
  iterate limit bound hlimit hbound := by
    obtain ⟨bound, rfl⟩ := Nat.exists_eq_add_of_le' hbound
    rw [iterate_succ hpop]
    rcases h.visit limit with hv | ⟨-, n, hn, hle⟩
    · rw [hv]
      rfl
    · exact absurd (hlimit n hn) (by omega)
  length limit bound := by
    cases bound with
    | zero => exact Nat.zero_le _
    | succ bound =>
      rcases h.visit limit with hv | ⟨⟨failure', hv⟩, -⟩
      · exact length_trail_of_error hpop hv
      · exact length_trail_of_error hpop hv

theorem Settles.cons {next : Progress} {steps : Nat} {result : Except Failure Evaluation}
    (hnext : next.Settles options pool method handlers steps result)
    (hpop : progress.pending.popFirst? = some (offset, rest))
    (h : Outcome options pool method handlers offset { progress with pending := rest }
      (.ok next)) :
    progress.Settles options pool method handlers (steps + 1) result where
  unlimited := hnext.unlimited
  iterate limit bound hlimit hbound := by
    obtain ⟨before, instruction, step, hvisited⟩ := h.visited next rfl
    obtain ⟨bound, rfl⟩ := Nat.exists_eq_add_of_le' (Nat.le_of_add_left_le hbound)
    rw [iterate_succ hpop]
    rcases h.visit limit with hv | ⟨-, n, hn, hle⟩
    · rw [hv]
      refine hnext.iterate limit bound (fun n hn => ?_) (Nat.le_of_succ_le_succ hbound)
      obtain ⟨m, hm, hle⟩ := hvisited.visits n hn
      have hroom := hlimit m hm
      omega
    · exact absurd (hlimit n hn) (by omega)
  length limit bound := by
    obtain ⟨before, instruction, step, hvisited⟩ := h.visited next rfl
    cases bound with
    | zero => exact Nat.zero_le _
    | succ bound =>
      rcases h.visit limit with hv | ⟨⟨failure, hv⟩, -⟩
      · rw [trail_succ hpop hv hvisited.recorded]
        exact Nat.succ_le_succ (hnext.length limit bound)
      · exact Nat.le_trans (length_trail_of_error hpop hv) (Nat.le_add_left 1 steps)

variable {size bound : Nat}

/-- **Every iteration ends by itself**: what is left to do becomes less with each visit. -/
theorem exists_settles (hbound : 1 + 2 * UInt32.size ≤ bound)
    (hhandlers : ∀ handler ∈ handlers, 1 + handler.target < bound) (progress : Progress)
    (hbelow : progress.Below size bound) :
    ∃ steps result, progress.Settles options pool method handlers steps result := by
  cases hpop : progress.pending.popFirst? with
  | none => exact ⟨0, _, settles_of_empty options pool method handlers hpop⟩
  | some found =>
    obtain ⟨offset, rest⟩ := found
    have hrest : Below size bound { progress with pending := rest } := ⟨hbelow.read, hbelow.frames⟩
    obtain ⟨outcome, houtcome⟩ :=
      exists_outcome options pool method handlers offset hrest.read
    cases outcome with
    | error failure => exact ⟨1, _, settles_of_error hpop houtcome⟩
    | ok next =>
      obtain ⟨before, instruction, step, hvisited⟩ := houtcome.visited next rfl
      have hnext := hvisited.below hbound hhandlers hrest
      have hlowers := hvisited.lowers hrest hnext
      obtain ⟨steps, result, hsettles⟩ := exists_settles hbound hhandlers next hnext
      exact ⟨steps + 1, result, hsettles.cons hpop houtcome⟩
termination_by (progress.missing, progress.weight bound, progress.pending.size)
decreasing_by
  rcases hlowers with hmissing | ⟨hmissing, hweight | ⟨hweight, hpending⟩⟩
  · exact .left _ _ hmissing
  · rw [show next.missing = progress.missing from hmissing]
    exact .right _ (.left _ _ hweight)
  · have hsize : next.pending.size ≤ rest.size := OrderedSet.size_le fun o ho =>
      OffsetSet.contains_iff_mem.mpr (hpending o (OffsetSet.contains_iff_mem.mp ho))
    have hpopped : progress.pending.size = rest.size + 1 :=
      congrArg List.length (OrderedSet.elements_of_popFirst?_eq_some hpop)
    rw [show next.missing = progress.missing from hmissing,
      show next.weight bound = progress.weight bound from hweight]
    exact .right _ (.right _ (by omega))

/-! ## Visits of one offset -/

/-- **The visits of one offset** execute on frames each of which has lost something against the one
before. -/
theorem pairwise_trail (hbound : 1 + 2 * UInt32.size ≤ bound)
    (hhandlers : ∀ handler ∈ handlers, 1 + handler.target < bound) (fuel : Nat)
    {progress : Progress} (hbelow : progress.Below size bound) :
    (∀ entry ∈ progress.trail options pool method handlers fuel, ∀ frame,
      progress.evaluation.before? entry.1 = some frame →
        entry.2 = frame ∧ entry.1 ∈ progress.pending.elements ∨ frame.Falls entry.2) ∧
      (progress.trail options pool method handlers fuel).Pairwise fun earlier later =>
        earlier.1 = later.1 → earlier.2.Falls later.2 := by
  induction fuel generalizing progress with
  | zero => exact ⟨fun entry h => absurd h List.not_mem_nil, .nil⟩
  | succ fuel ih =>
    cases hpop : progress.pending.popFirst? with
    | none =>
      rw [trail, hpop]
      exact ⟨fun entry h => absurd h List.not_mem_nil, .nil⟩
    | some found =>
      obtain ⟨offset, rest⟩ := found
      have helements := OrderedSet.elements_of_popFirst?_eq_some hpop
      cases hv : visit options pool method handlers offset { progress with pending := rest } with
      | error failure =>
        simp only [trail, hpop, hv, List.append_nil]
        cases hbefore : progress.evaluation.before? offset with
        | none => exact ⟨fun entry h => absurd h List.not_mem_nil, .nil⟩
        | some before =>
          refine ⟨fun entry h frame hframe => ?_, List.pairwise_singleton _ _⟩
          cases List.mem_singleton.mp h
          cases hbefore.symm.trans hframe
          exact .inl ⟨rfl, helements ▸ List.mem_cons_self⟩
      | ok next =>
        obtain ⟨before, instruction, step, hvisited⟩ := visit_spec hv
        have hrest : Below size bound { progress with pending := rest } :=
          ⟨hbelow.read, hbelow.frames⟩
        have hnext := hvisited.below hbound hhandlers hrest
        obtain ⟨hlater, hpairwise⟩ := ih hnext
        rw [trail_succ hpop hv hvisited.recorded]
        have hfound (entry) (hentry : entry ∈ next.trail options pool method handlers fuel) (frame)
            (hframe : progress.evaluation.before? entry.1 = some frame) :
            entry.2 = frame ∧ entry.1 ∈ rest.elements ∨ frame.Falls entry.2 := by
          obtain ⟨frame', hframe', hcases⟩ := hvisited.falls_or_eq hrest hnext hframe
          rcases hcases with ⟨rfl, hkept⟩ | hfalls
          · exact (hlater entry hentry frame' hframe').imp_left fun h => ⟨h.1, hkept h.2⟩
          · rcases hlater entry hentry frame' hframe' with ⟨heq, -⟩ | hfalls'
            · exact .inr (heq ▸ hfalls)
            · exact .inr (hfalls.trans hfalls')
        refine ⟨fun entry hentry frame hframe => ?_, List.pairwise_cons.mpr ⟨?_, hpairwise⟩⟩
        · rcases List.mem_cons.mp hentry with rfl | hentry
          · cases hframe.symm.trans hvisited.recorded
            exact .inl ⟨rfl, helements ▸ List.mem_cons_self⟩
          · refine (hfound entry hentry frame hframe).imp_left fun h => ⟨h.1, ?_⟩
            exact helements ▸ List.mem_cons_of_mem _ h.2
        · intro later hmem heq
          simp only at heq
          have hframe : progress.evaluation.before? later.1 = some before :=
            heq ▸ hvisited.recorded
          refine (hfound later hmem before hframe).resolve_left fun hpending => ?_
          have hsorted := helements ▸ progress.pending.ascending
          exact absurd ((List.pairwise_cons.mp hsorted).1 later.1 hpending.2) (by omega)

end Progress

/-! ## The whole evaluation -/

/-- The state of an evaluation before its first visit. -/
def begin (options : EvaluationOptions) (owner : String) (method : Method) (code : Code) :
    Except Failure Progress := do
  let listing ← Listing.ofCode code.bytes
  let blank : Progress :=
    ⟨.blank listing, OrderedSet.empty, Array.replicate listing.size 0⟩
  if listing.size = 0 || !options.allows 0 then return blank
  let locals ← entryLocals options owner method code.maxLocals
  blank.merge 0 ⟨locals, Stack.empty⟩

variable {options : EvaluationOptions} {pool : ConstantPool} {owner : String} {method : Method}
  {code : Code}

theorem storeParameters_withLimit (limit : Nat) (types : List FieldType) (slot : UInt16)
    (locals : Locals) :
    storeParameters (options.withLimit limit) owner method types slot locals =
      storeParameters options owner method types slot locals := by
  induction types generalizing slot locals with
  | nil => rfl
  | cons type rest ih =>
    simp only [storeParameters, ih]
    rfl

theorem begin_withLimit (options : EvaluationOptions) (limit : Nat) (owner : String)
    (method : Method) (code : Code) :
    begin (options.withLimit limit) owner method code = begin options owner method code := by
  simp only [begin, entryLocals, storeParameters_withLimit]
  rfl

/-- What runs from the state before the first visit, and has nothing to do if no offset is pending,
may as well be run after the beginning. -/
theorem begin_bind {β : Type} (nothing : Listing → β) (run : Nat → Progress → Except Failure β)
    (hnothing : ∀ listing counts bound,
      run bound ⟨.blank listing, OrderedSet.empty, counts⟩ = .ok (nothing listing)) :
    (do
      let listing ← Listing.ofCode code.bytes
      if listing.size = 0 || !options.allows 0 then return nothing listing
      let start : Progress :=
        ⟨.blank listing, OrderedSet.empty, Array.replicate listing.size 0⟩
      let locals ← entryLocals options owner method code.maxLocals
      let start ← start.merge 0 ⟨locals, Stack.empty⟩
      run (listing.size * options.maxVisits + 1) start) =
    begin options owner method code >>= fun start =>
      run (start.evaluation.size * options.maxVisits + 1) start := by
  unfold begin
  cases Listing.ofCode code.bytes with
  | error failure => rfl
  | ok listing =>
    simp only [bind, Except.bind]
    split
    · exact (hnothing ..).symm
    · cases entryLocals options owner method code.maxLocals with
      | error failure => rfl
      | ok locals =>
        simp only
        cases hstart : Progress.merge ⟨.blank listing, OrderedSet.empty,
            Array.replicate listing.size 0⟩ 0 ⟨locals, Stack.empty⟩ with
        | error failure => rfl
        | ok start =>
          have hsize : start.evaluation.size = listing.size :=
            congrArg Listing.size (Progress.entered_of_merge hstart).listing
          simp only [hsize]

/-- The iteration starts from the state before the first visit. -/
theorem evaluate_eq_begin_bind : evaluate options pool owner method code =
    begin options owner method code >>= fun start =>
      start.iterate options pool method code.handlers
        (start.evaluation.size * options.maxVisits + 1) :=
  begin_bind Evaluation.blank
    (fun bound start => start.iterate options pool method code.handlers bound)
    fun _ _ bound => by cases bound <;> rfl

theorem visits_eq_begin_bind : visits options pool owner method code =
    begin options owner method code >>= fun start =>
      .ok (start.trail options pool method code.handlers
        (start.evaluation.size * options.maxVisits + 1)) :=
  begin_bind (fun _ => [])
    (fun bound start => .ok (start.trail options pool method code.handlers bound))
    fun _ _ bound => by cases bound <;> rfl

theorem unlimited_begin : FailsOnly Failure.Unlimited (begin options owner method code) :=
  (Listing.ordinary_ofCode _).unlimited.bind fun _ _ => .ite (fun _ => .ok _) fun _ =>
    (ordinary_entryLocals _ _ _ _).unlimited.bind fun _ _ => Progress.unlimited_merge _ _ _

/-- A bound on the ranks of the origins of a body with these handlers. -/
def rankBound (handlers : List Handler) : Nat :=
  1 + 2 * UInt32.size + (handlers.map (·.target)).sum

theorem rank_lt_rankBound {handlers : List Handler} {handler : Handler} (h : handler ∈ handlers) :
    1 + handler.target < rankBound handlers := by
  have hle := List.le_sum_of_mem (List.mem_map_of_mem (f := (·.target)) h)
  have hpos : 0 < UInt32.size := by decide
  unfold rankBound
  omega

/-- What holds before the first visit. -/
structure Begun (size bound : Nat) (start : Progress) : Prop where
  below : start.Below size bound
  visits : ∀ n ∈ start.visits, n = 0
  pending : start.pending.popFirst? = none ∨ 0 < start.evaluation.size

theorem begun_of_begin {bound : Nat} {start : Progress} (hbound : 1 + 2 * UInt32.size ≤ bound)
    (h : begin options owner method code = .ok start) :
    Begun code.maxLocals.toNat bound start := by
  obtain ⟨listing, hlisting, h⟩ := Except.bind_eq_ok.mp h
  have hread := Listing.read_of_ofCode hlisting
  simp only at h
  split at h
  · cases h
    refine ⟨⟨hread, fun offset frame hframe => ?_⟩, fun n hn => ?_, .inl rfl⟩
    · rw [Evaluation.before?_blank] at hframe
      cases hframe
    · exact (Array.mem_replicate.mp hn).2
  · rename_i hsome
    obtain ⟨locals, hlocals, h⟩ := Except.bind_eq_ok.mp h
    have hentered := Progress.entered_of_merge h
    obtain ⟨hgrows, -⟩ := Progress.merge_spec (fun _ _ => False) (fun _ _ => True) trivial h
    refine ⟨⟨hentered.listing ▸ hread, fun offset frame hframe => ?_⟩, fun n hn => ?_, .inr ?_⟩
    · obtain ⟨-, rfl⟩ := hentered.before offset frame hframe
      refine ⟨(frameInvariant_below hbound _).entryLocals ⟨size_ofSize _, ?_⟩ hlocals,
        by simp [Stack.view_empty]⟩
      intro slot hslot
      rw [(Array.mem_replicate.mp hslot).2]
      exact ⟨Value.built_top, (frameInvariant_below hbound 0).entry⟩
    · exact (Array.mem_replicate.mp (hgrows.visits ▸ hn)).2
    · rw [Evaluation.size, hentered.listing]
      exact Nat.pos_of_ne_zero fun hzero => hsome (by simp [hzero])

/-- **An evaluation ends by itself.** For every body there is a number of visits that is enough:
with every limit from there on an evaluation gives the same, and not the failure of the limit; and
whatever the limit, no more visits are made, and an offset is visited again only on a frame that has
lost something since. -/
theorem evaluate_settles (options : EvaluationOptions) (pool : ConstantPool) (owner : String)
    (method : Method) (code : Code) : ∃ enough result,
      (∀ limit, enough ≤ limit →
        evaluate (options.withLimit limit) pool owner method code = result) ∧
      (∀ offset limit, result ≠ .error (.visitLimit offset limit)) ∧
      ∀ limit made, visits (options.withLimit limit) pool owner method code = .ok made →
        made.length ≤ enough ∧
          made.Pairwise fun earlier later => earlier.1 = later.1 → earlier.2.Falls later.2 := by
  cases hbegin : begin options owner method code with
  | error failure =>
    refine ⟨0, .error failure, fun limit _ => ?_, fun offset limit heq => ?_,
      fun limit made hmade => ?_⟩
    · rw [evaluate_eq_begin_bind, begin_withLimit, hbegin]
      rfl
    · cases heq
      exact unlimited_begin _ hbegin offset limit rfl
    · rw [visits_eq_begin_bind, begin_withLimit, hbegin] at hmade
      cases hmade
  | ok start =>
    have hbound : 1 + 2 * UInt32.size ≤ rankBound code.handlers := Nat.le_add_right _ _
    have hhandlers : ∀ handler ∈ code.handlers, 1 + handler.target < rankBound code.handlers :=
      fun _ hm => rank_lt_rankBound hm
    have hbegun := begun_of_begin hbound hbegin
    obtain ⟨steps, result, hsettles, hfuel⟩ : ∃ steps result,
        start.Settles options pool method code.handlers steps result ∧
          (steps = 0 ∨ 0 < start.evaluation.size) := by
      rcases hbegun.pending with hpop | hpos
      · exact ⟨0, _, Progress.settles_of_empty options pool method code.handlers hpop, .inl rfl⟩
      · obtain ⟨steps, result, hsettles⟩ :=
          Progress.exists_settles hbound hhandlers start hbegun.below
        exact ⟨steps, result, hsettles, .inr hpos⟩
    refine ⟨steps, result, fun limit hlimit => ?_, fun offset limit heq => ?_,
      fun limit made hmade => ?_⟩
    · rw [evaluate_eq_begin_bind, begin_withLimit, hbegin]
      refine hsettles.iterate limit _ (fun n hn => ?_) ?_
      · rw [hbegun.visits n hn]
        omega
      · rcases hfuel with rfl | hpos
        · exact Nat.zero_le _
        · have hmul : limit ≤ start.evaluation.size * limit := Nat.le_mul_of_pos_left limit hpos
          exact Nat.le_succ_of_le (Nat.le_trans hlimit hmul)
    · exact hsettles.unlimited _ heq offset limit rfl
    · rw [visits_eq_begin_bind, begin_withLimit, hbegin] at hmade
      cases hmade
      exact ⟨hsettles.length limit _,
        (Progress.pairwise_trail hbound hhandlers _ hbegun.below).2⟩

end JvmTrim
