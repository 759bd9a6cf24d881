import JvmTrim.Proofs.Collecting
import JvmTrim.Proofs.HandlerLiveness

/-!
# Rounds of marking

The loops of marking count nothing. A worklist holds the marks that are to be set; setting one adds
what follows from it. Once the list is empty the other rules are asked, and if they ask for more,
there is another pass. When they do not, the round is over, and if it has left some handler dead,
marking starts again. Here these loops are described as they are, without a bound, together with a
record of what they do: which marks they expand, in which pass of which round.

Every run of the loops comes to an end, and it ends with what `Subject.mark` gives, which stops
after a number of steps that was fixed before. A mark that is already set is passed over, so a round
expands none of them twice. Every pass but the first begins with an instruction that was not
necessary, so there are not more of these passes than offsets. Every round but the first has fewer
live handlers than the one before.

## Main definitions

* `Subject.Propagates`, `Subject.Saturates`, `Subject.MarksFrom`: the three loops
* `Subject.Fresh`: marks of a body of which none is set before, and none twice
* `Subject.Frugal`: what is known of the rounds

## Main results

* `Subject.marksFrom_of_markFrom`: the loops end with what the bounded functions give
* `Subject.Saturates.fresh`: a round expands no mark twice
* `Subject.mark_ends`: marking ends, after few rounds with few passes
-/

namespace JvmTrim

namespace Subject

variable {subject : Subject} {original reductions reductions' : Reductions} {simple : Evaluation}
  {marks marks' : Marks} {mark : Mark} {pending rest following expanded : List Mark}
  {passes : List (List Mark)} {live : List Bool} {bound : Nat}

/-! ## The loops -/

/-- Sets a mark that was taken from the worklist, and adds what follows from it. -/
def expand (subject : Subject) (reductions : Reductions) (mark : Mark) (rest : List Mark)
    (marks : Marks) : Except Failure (List Mark × Marks) := do
  let marks ← marks.set mark
  let following ← subject.visit reductions marks mark
  return (following.reverse ++ rest, marks)

/-- **The loop over the worklist**: the marks that it expands, and what it ends with, which are all
marks once the worklist is empty, or a failure. -/
inductive Propagates (subject : Subject) (reductions : Reductions) :
    List Mark → Marks → List Mark → Except Failure Marks → Prop where
  | empty (marks : Marks) : Propagates subject reductions [] marks [] (.ok marks)
  | skip {mark : Mark} {rest expanded : List Mark} {marks : Marks} {result : Except Failure Marks}
      (hset : marks.has mark = true)
      (h : Propagates subject reductions rest marks expanded result) :
      Propagates subject reductions (mark :: rest) marks expanded result
  | expand {mark : Mark} {rest pending expanded : List Mark} {marks marks' : Marks}
      {result : Except Failure Marks} (hnew : marks.has mark = false)
      (hexpand : subject.expand reductions mark rest marks = .ok (pending, marks'))
      (h : Propagates subject reductions pending marks' expanded result) :
      Propagates subject reductions (mark :: rest) marks (mark :: expanded) result
  | fail {mark : Mark} {rest : List Mark} {marks : Marks} {failure : Failure}
      (hnew : marks.has mark = false)
      (hexpand : subject.expand reductions mark rest marks = .error failure) :
      Propagates subject reductions (mark :: rest) marks [mark] (.error failure)

/-- What the other rules ask for: branches over code that stays and missing stores, or, if there are
none of these, a loop of which nothing is left. -/
def further (subject : Subject) (simple : Evaluation) (reductions : Reductions) (marks : Marks) :
    Except Failure (List Mark × Reductions) := do
  let branches ← subject.straddlingBranches reductions marks
  let stores ← subject.missingStores reductions simple marks
  let following := branches ++ stores
  let loop ← if following.isEmpty then subject.emptyLoop? reductions marks else pure none
  match loop with
  | some offset => return (marks.require offset, reductions.setIfInBounds offset (some .loop))
  | none => return (following, reductions)

/-- What a pass gives: the marks that propagation ends with, and what the other rules ask for. -/
def pass (subject : Subject) (simple : Evaluation) (reductions : Reductions)
    (propagated : Except Failure Marks) : Except Failure (Marks × List Mark × Reductions) := do
  let marks ← propagated
  let found ← subject.further simple reductions marks
  return (marks, found)

/-- **The passes of a round**: the marks that each of them expands, and what the last one gives. -/
inductive Saturates (subject : Subject) (simple : Evaluation) :
    List Mark → Reductions → Marks → List (List Mark) → Except Failure (Marks × Reductions) →
      Prop where
  | fail {pending expanded : List Mark} {reductions : Reductions} {marks : Marks}
      {propagated : Except Failure Marks} {failure : Failure}
      (hpropagates : subject.Propagates reductions pending.reverse marks expanded propagated)
      (hpass : subject.pass simple reductions propagated = .error failure) :
      Saturates subject simple pending reductions marks [expanded] (.error failure)
  | settle {pending expanded : List Mark} {reductions reductions' : Reductions}
      {marks marks' : Marks} {propagated : Except Failure Marks}
      (hpropagates : subject.Propagates reductions pending.reverse marks expanded propagated)
      (hpass : subject.pass simple reductions propagated = .ok (marks', [], reductions')) :
      Saturates subject simple pending reductions marks [expanded] (.ok (marks', reductions'))
  | again {pending expanded following : List Mark} {reductions reductions' : Reductions}
      {marks marks' : Marks} {propagated : Except Failure Marks} {passes : List (List Mark)}
      {result : Except Failure (Marks × Reductions)}
      (hpropagates : subject.Propagates reductions pending.reverse marks expanded propagated)
      (hpass : subject.pass simple reductions propagated = .ok (marks', following, reductions'))
      (hmore : following ≠ [])
      (h : Saturates subject simple following reductions' marks' passes result) :
      Saturates subject simple pending reductions marks (expanded :: passes) result

/-- What a round starts with: no marks, the simple evaluation of what is reachable, and the marks
that are set whatever follows. -/
def prepare (subject : Subject) (reductions : Reductions) (live : List Bool) :
    Except Failure (Marks × Evaluation × List Mark) := do
  let marks ← subject.unmarked live
  let simple ← evaluate ⟨subject.assumptions, .simple, some marks.reachable, subject.maxVisits⟩
    subject.pool subject.owner subject.method subject.code
  let roots ← subject.roots reductions marks
  return (marks, simple, roots)

/-- **A round** for given live handlers, with its passes. -/
inductive MarksWith (subject : Subject) (reductions : Reductions) (live : List Bool) :
    List (List Mark) → Except Failure (Marks × Reductions) → Prop where
  | fail {failure : Failure} (hprepare : subject.prepare reductions live = .error failure) :
      MarksWith subject reductions live [] (.error failure)
  | pass {marks : Marks} {simple : Evaluation} {roots : List Mark} {passes : List (List Mark)}
      {result : Except Failure (Marks × Reductions)}
      (hprepare : subject.prepare reductions live = .ok (marks, simple, roots))
      (hpasses : subject.Saturates simple roots reductions marks passes result) :
      MarksWith subject reductions live passes result

/-- What is recorded of a round: the handlers that are live, and the marks that its passes
expand. -/
structure Round where
  /-- For every entry of the exception table, whether it is live. -/
  live : List Bool
  /-- The marks that each pass expands. -/
  passes : List (List Mark)

/-- **The rounds of marking**, each with the handlers that the one before has left. -/
inductive MarksFrom (subject : Subject) (reductions : Reductions) :
    List Bool → List Round → Except Failure (Marks × Reductions) → Prop where
  | fail {live : List Bool} {passes : List (List Mark)} {failure : Failure}
      (hround : subject.MarksWith reductions live passes (.error failure)) :
      MarksFrom subject reductions live [⟨live, passes⟩] (.error failure)
  | settle {live : List Bool} {passes : List (List Mark)} {marks : Marks} {reduced : Reductions}
      (hround : subject.MarksWith reductions live passes (.ok (marks, reduced)))
      (hsettled : subject.stillLive marks = live) :
      MarksFrom subject reductions live [⟨live, passes⟩]
        (do return (marks, ← subject.revertLoops reductions reduced marks))
  | again {live : List Bool} {passes : List (List Mark)} {marks : Marks} {reduced : Reductions}
      {rounds : List Round} {result : Except Failure (Marks × Reductions)}
      (hround : subject.MarksWith reductions live passes (.ok (marks, reduced)))
      (hfewer : subject.stillLive marks ≠ live)
      (h : MarksFrom subject reductions (subject.stillLive marks) rounds result) :
      MarksFrom subject reductions live (⟨live, passes⟩ :: rounds) result

/-! ## The loops end as the functions do -/

theorem propagate_cons_of_has (h : marks.has mark = true) :
    subject.propagate reductions bound (mark :: rest) marks =
      subject.propagate reductions bound rest marks := by
  rw [propagate, List.dropWhile_cons_of_pos h, ← propagate]

theorem propagate_cons_zero (h : marks.has mark = false) :
    subject.propagate reductions 0 (mark :: rest) marks = .error (.fault .exhausted) := by
  rw [propagate, List.dropWhile_cons_of_neg (by simp [h])]

theorem propagate_cons_succ (h : marks.has mark = false) :
    subject.propagate reductions (bound + 1) (mark :: rest) marks = (do
      let next ← subject.expand reductions mark rest marks
      subject.propagate reductions bound next.1 next.2) := by
  rw [propagate, List.dropWhile_cons_of_neg (by simp [h])]
  simp only [Subject.expand, bind_assoc, pure_bind]

/-- A propagation within a bound is what the loop over the worklist does, unless the bound was too
small. -/
theorem propagates_of_propagate {result : Except Failure Marks}
    (h : subject.propagate reductions bound pending marks = result)
    (hended : result ≠ .error (.fault .exhausted)) :
    ∃ expanded, subject.Propagates reductions pending marks expanded result := by
  induction bound using Nat.strongRecOn generalizing pending marks with
  | ind bound ih =>
  induction pending with
  | nil =>
    have hempty : subject.propagate reductions bound [] marks = .ok marks := by cases bound <;> rfl
    exact ⟨[], h ▸ hempty ▸ .empty marks⟩
  | cons mark rest ihrest =>
    cases hset : marks.has mark with
    | true =>
      rw [propagate_cons_of_has hset] at h
      obtain ⟨expanded, hpropagates⟩ := ihrest h
      exact ⟨expanded, .skip hset hpropagates⟩
    | false =>
      cases bound with
      | zero => exact absurd (h ▸ propagate_cons_zero hset) hended
      | succ bound =>
        rw [propagate_cons_succ hset] at h
        cases hexpand : subject.expand reductions mark rest marks with
        | error failure =>
          rw [hexpand] at h
          exact ⟨[mark], h ▸ .fail hset hexpand⟩
        | ok next =>
          rw [hexpand] at h
          obtain ⟨expanded, hpropagates⟩ := ih bound (Nat.lt_succ_self _) h
          exact ⟨mark :: expanded, .expand hset hexpand hpropagates⟩

theorem saturate_eq : subject.saturate simple bound pending reductions marks = (do
    let found ← subject.pass simple reductions
      (subject.propagate reductions subject.markBound pending.reverse marks)
    if found.2.1.isEmpty then return (found.1, found.2.2)
    else
      match bound with
      | 0 => .error (.fault .exhausted)
      | bound + 1 => subject.saturate simple bound found.2.1 found.2.2 found.1) := by
  rw [saturate]
  simp only [pass, further, bind_assoc]
  refine bind_congr fun marks => bind_congr fun branches => bind_congr fun stores => ?_
  split
  · cases subject.emptyLoop? reductions marks with
    | error failure => rfl
    | ok loop => cases loop <;> rfl
  · rfl

/-- The passes within a bound are those of a round, unless the bound was too small. -/
theorem saturates_of_saturate {result : Except Failure (Marks × Reductions)}
    (h : subject.saturate simple bound pending reductions marks = result)
    (hended : result ≠ .error (.fault .exhausted)) :
    ∃ passes, subject.Saturates simple pending reductions marks passes result := by
  induction bound using Nat.strongRecOn generalizing pending reductions marks with
  | ind bound ih =>
  rw [saturate_eq] at h
  have hpropagated : subject.propagate reductions subject.markBound pending.reverse marks ≠
      .error (.fault .exhausted) := by
    intro hstuck
    rw [hstuck] at h
    exact hended h.symm
  obtain ⟨expanded, hpropagates⟩ := propagates_of_propagate rfl hpropagated
  cases hpass : subject.pass simple reductions
      (subject.propagate reductions subject.markBound pending.reverse marks) with
  | error failure =>
    rw [hpass] at h
    exact ⟨[expanded], h ▸ .fail hpropagates hpass⟩
  | ok found =>
    obtain ⟨marks', following, reductions'⟩ := found
    simp only [hpass, bind, Except.bind] at h
    by_cases hmore : following = []
    · subst hmore
      exact ⟨[expanded], h ▸ .settle hpropagates hpass⟩
    · rw [if_neg (by simpa using hmore)] at h
      cases bound with
      | zero => exact absurd h.symm hended
      | succ bound =>
        obtain ⟨passes, hpasses⟩ := ih bound (Nat.lt_succ_self _) h
        exact ⟨expanded :: passes, .again hpropagates hpass hmore hpasses⟩

theorem markWith_eq : subject.markWith reductions live = (do
    let start ← subject.prepare reductions live
    subject.saturate start.2.1 subject.evaluation.size start.2.2 reductions start.1) := by
  simp only [markWith, prepare, bind_assoc, pure_bind]

theorem marksWith_of_markWith {result : Except Failure (Marks × Reductions)}
    (h : subject.markWith reductions live = result)
    (hended : result ≠ .error (.fault .exhausted)) :
    ∃ passes, subject.MarksWith reductions live passes result := by
  rw [markWith_eq] at h
  cases hprepare : subject.prepare reductions live with
  | error failure =>
    rw [hprepare] at h
    exact ⟨[], h ▸ .fail hprepare⟩
  | ok start =>
    rw [hprepare] at h
    obtain ⟨passes, hpasses⟩ := saturates_of_saturate h hended
    exact ⟨passes, .pass hprepare hpasses⟩

/-- **The rounds within a bound are those of marking**, unless the bound was too small. -/
theorem marksFrom_of_markFrom {result : Except Failure (Marks × Reductions)}
    (h : subject.markFrom reductions bound live = result)
    (hended : result ≠ .error (.fault .exhausted)) :
    ∃ rounds, subject.MarksFrom reductions live rounds result := by
  induction bound using Nat.strongRecOn generalizing live with
  | ind bound ih =>
  rw [markFrom] at h
  have hmarked : subject.markWith reductions live ≠ .error (.fault .exhausted) := by
    intro hstuck
    rw [hstuck] at h
    exact hended h.symm
  obtain ⟨passes, hround⟩ := marksWith_of_markWith rfl hmarked
  cases hmark : subject.markWith reductions live with
  | error failure =>
    rw [hmark] at h hround
    exact ⟨[⟨live, passes⟩], h ▸ .fail hround⟩
  | ok marked =>
    obtain ⟨marks, reduced⟩ := marked
    rw [hmark] at hround
    simp only [hmark, bind, Except.bind] at h
    by_cases hsettled : subject.stillLive marks = live
    · rw [if_pos hsettled] at h
      exact ⟨[⟨live, passes⟩], h ▸ .settle hround hsettled⟩
    · rw [if_neg hsettled] at h
      cases bound with
      | zero => exact absurd h.symm hended
      | succ bound =>
        obtain ⟨rounds, hrounds⟩ := ih bound (Nat.lt_succ_self _) h
        exact ⟨⟨live, passes⟩ :: rounds, .again hround hsettled hrounds⟩

/-! ## The loops have one run -/

theorem Propagates.unique {result result' : Except Failure Marks} {expanded' : List Mark}
    (h : subject.Propagates reductions pending marks expanded result)
    (h' : subject.Propagates reductions pending marks expanded' result') :
    expanded' = expanded ∧ result' = result := by
  induction h generalizing expanded' result' with
  | empty =>
    cases h'
    exact ⟨rfl, rfl⟩
  | skip hset _ ih =>
    cases h' with
    | skip _ h' => exact ih h'
    | expand hnew | fail hnew => cases hset.symm.trans hnew
  | expand hnew hexpand _ ih =>
    cases h' with
    | skip hset => cases hset.symm.trans hnew
    | expand _ hexpand' h' =>
      cases hexpand.symm.trans hexpand'
      exact (ih h').imp_left (congrArg _)
    | fail _ hexpand' => cases hexpand.symm.trans hexpand'
  | fail hnew hexpand =>
    cases h' with
    | skip hset => cases hset.symm.trans hnew
    | expand _ hexpand' => cases hexpand.symm.trans hexpand'
    | fail _ hexpand' =>
      cases hexpand.symm.trans hexpand'
      exact ⟨rfl, rfl⟩

theorem Saturates.unique {result result' : Except Failure (Marks × Reductions)}
    {passes' : List (List Mark)}
    (h : subject.Saturates simple pending reductions marks passes result)
    (h' : subject.Saturates simple pending reductions marks passes' result') :
    passes' = passes ∧ result' = result := by
  induction h generalizing passes' result' with
  | fail hpropagates hpass =>
    cases h' with
    | fail hpropagates' hpass' =>
      obtain ⟨rfl, rfl⟩ := hpropagates.unique hpropagates'
      cases hpass.symm.trans hpass'
      exact ⟨rfl, rfl⟩
    | settle hpropagates' hpass' | again hpropagates' hpass' =>
      obtain ⟨rfl, rfl⟩ := hpropagates.unique hpropagates'
      cases hpass.symm.trans hpass'
  | settle hpropagates hpass =>
    cases h' with
    | fail hpropagates' hpass' =>
      obtain ⟨rfl, rfl⟩ := hpropagates.unique hpropagates'
      cases hpass.symm.trans hpass'
    | settle hpropagates' hpass' =>
      obtain ⟨rfl, rfl⟩ := hpropagates.unique hpropagates'
      cases hpass.symm.trans hpass'
      exact ⟨rfl, rfl⟩
    | again hpropagates' hpass' hmore =>
      obtain ⟨rfl, rfl⟩ := hpropagates.unique hpropagates'
      cases hpass.symm.trans hpass'
      exact absurd rfl hmore
  | again hpropagates hpass hmore _ ih =>
    cases h' with
    | fail hpropagates' hpass' =>
      obtain ⟨rfl, rfl⟩ := hpropagates.unique hpropagates'
      cases hpass.symm.trans hpass'
    | settle hpropagates' hpass' =>
      obtain ⟨rfl, rfl⟩ := hpropagates.unique hpropagates'
      cases hpass.symm.trans hpass'
      exact absurd rfl hmore
    | again hpropagates' hpass' _ h' =>
      obtain ⟨rfl, rfl⟩ := hpropagates.unique hpropagates'
      cases hpass.symm.trans hpass'
      exact (ih h').imp_left (congrArg _)

theorem MarksWith.unique {result result' : Except Failure (Marks × Reductions)}
    {passes' : List (List Mark)} (h : subject.MarksWith reductions live passes result)
    (h' : subject.MarksWith reductions live passes' result') :
    passes' = passes ∧ result' = result := by
  cases h with
  | fail hprepare =>
    cases h' with
    | fail hprepare' =>
      cases hprepare.symm.trans hprepare'
      exact ⟨rfl, rfl⟩
    | pass hprepare' => cases hprepare.symm.trans hprepare'
  | pass hprepare hpasses =>
    cases h' with
    | fail hprepare' => cases hprepare.symm.trans hprepare'
    | pass hprepare' hpasses' =>
      cases hprepare.symm.trans hprepare'
      exact hpasses.unique hpasses'

/-- **Marking has one run.** -/
theorem MarksFrom.unique {result result' : Except Failure (Marks × Reductions)}
    {rounds rounds' : List Round} (h : subject.MarksFrom reductions live rounds result)
    (h' : subject.MarksFrom reductions live rounds' result') :
    rounds' = rounds ∧ result' = result := by
  induction h generalizing rounds' result' with
  | fail hround =>
    cases h' with
    | fail hround' =>
      obtain ⟨rfl, hsame⟩ := hround.unique hround'
      cases hsame
      exact ⟨rfl, rfl⟩
    | settle hround' | again hround' => cases (hround.unique hround').2
  | settle hround hsettled =>
    cases h' with
    | fail hround' => cases (hround.unique hround').2
    | settle hround' =>
      obtain ⟨rfl, hsame⟩ := hround.unique hround'
      cases hsame
      exact ⟨rfl, rfl⟩
    | again hround' hfewer =>
      cases (hround.unique hround').2
      exact absurd hsettled hfewer
  | again hround hfewer _ ih =>
    cases h' with
    | fail hround' => cases (hround.unique hround').2
    | settle hround' hsettled =>
      cases (hround.unique hround').2
      exact absurd hsettled hfewer
    | again hround' _ h' =>
      obtain ⟨rfl, hsame⟩ := hround.unique hround'
      cases hsame
      exact (ih h').imp_left (congrArg _)

/-! ## What the loops expand -/

/-- Whether marks are such as a loop expands: marks of the body that were not set before, none of
them twice. -/
structure Fresh (subject : Subject) (marks : Marks) (expanded : List Mark) : Prop where
  known : ∀ m ∈ expanded, m ∈ subject.allMarks
  unset : ∀ m ∈ expanded, marks.has m = false
  nodup : expanded.Nodup

theorem Fresh.nil : subject.Fresh marks [] := ⟨by simp, by simp, List.nodup_nil⟩

theorem Fresh.singleton (hmem : mark ∈ subject.allMarks) (hnew : marks.has mark = false) :
    subject.Fresh marks [mark] :=
  ⟨by simpa using hmem, by simpa using hnew, by simp⟩

/-- What is expanded later is fresh beside what has been set by then. -/
theorem Fresh.append {later : List Mark} (h : subject.Fresh marks expanded)
    (hextends : marks.Extends marks') (hset : ∀ m ∈ expanded, marks'.has m = true)
    (hlater : subject.Fresh marks' later) : subject.Fresh marks (expanded ++ later) := by
  refine ⟨fun m hm => ?_, fun m hm => ?_, List.nodup_append.mpr ⟨h.nodup, hlater.nodup, ?_⟩⟩
  · exact (List.mem_append.mp hm).elim (h.known m) (hlater.known m)
  · rcases List.mem_append.mp hm with hm | hm
    · exact h.unset m hm
    · by_contra hold
      rw [Bool.not_eq_false] at hold
      exact Bool.false_ne_true ((hlater.unset m hm).symm.trans (hextends.has m hold))
  · rintro m hm m' hm' rfl
    exact Bool.false_ne_true ((hlater.unset m hm').symm.trans (hset m hm))

/-- What a loop starts with: reductions and marks that have room for the body, and pending marks of
the body. -/
structure Ready (subject : Subject) (reductions : Reductions) (marks : Marks)
    (pending : List Mark) : Prop where
  sized : reductions.size = subject.evaluation.size
  fits : marks.Fits subject.evaluation.size
  pending : ∀ m ∈ pending, m ∈ subject.allMarks

theorem Ready.tail (h : subject.Ready reductions marks (mark :: rest)) :
    subject.Ready reductions marks rest :=
  ⟨h.sized, h.fits, fun m hm => h.pending m (List.mem_cons_of_mem _ hm)⟩

theorem Ready.reverse (h : subject.Ready reductions marks pending) :
    subject.Ready reductions marks pending.reverse :=
  ⟨h.sized, h.fits, fun m hm => h.pending m (List.mem_reverse.mp hm)⟩

theorem Ready.of_expand (hb : subject.Bounded) (h : subject.Ready reductions marks (mark :: rest))
    (hexpand : subject.expand reductions mark rest marks = .ok (pending, marks')) :
    subject.Ready reductions marks' pending ∧ marks.Extends marks' ∧ marks'.has mark = true := by
  obtain ⟨_, hset, hexpand⟩ := Except.bind_eq_ok.mp hexpand
  obtain ⟨following, hvisit, hexpand⟩ := Except.bind_eq_ok.mp hexpand
  cases hexpand
  have hmem := h.pending mark List.mem_cons_self
  obtain ⟨hextends, hhas⟩ := (yields_set h.fits hmem).2 _ hset
  have hfits := hextends.fits h.fits
  refine ⟨⟨h.sized, hfits, fun m hm => ?_⟩, hextends, hhas⟩
  rcases List.mem_append.mp hm with hm | hm
  · exact hb.mem_of_follows hfits.reachable hmem
      ((visit_spec hvisit).1 m (List.mem_reverse.mp hm))
  · exact h.pending m (List.mem_cons_of_mem _ hm)

/-- **Propagation expands every mark at most once**, and none that was set before. -/
theorem Propagates.fresh {result : Except Failure Marks} (hb : subject.Bounded)
    (h : subject.Propagates reductions pending marks expanded result)
    (hready : subject.Ready reductions marks pending) :
    subject.Fresh marks expanded ∧ ∀ final, result = .ok final →
      marks.Extends final ∧ ∀ m ∈ expanded, final.has m = true := by
  induction h with
  | empty marks =>
    refine ⟨.nil, fun final hfinal => ?_⟩
    cases hfinal
    exact ⟨.refl _, by simp⟩
  | skip _ _ ih => exact ih hready.tail
  | expand hnew hexpand _ ih =>
    obtain ⟨hready', hextends, hset⟩ := hready.of_expand hb hexpand
    obtain ⟨hfresh, hfinal⟩ := ih hready'
    have hone := Fresh.singleton (hready.pending _ List.mem_cons_self) hnew
    refine ⟨hone.append hextends (by simpa using hset) hfresh, fun final hresult => ?_⟩
    obtain ⟨hextends', hall⟩ := hfinal final hresult
    refine ⟨hextends.trans hextends', fun m hm => ?_⟩
    rcases List.mem_cons.mp hm with rfl | hm
    · exact hextends'.has _ hset
    · exact hall m hm
  | fail hnew hexpand =>
    refine ⟨.singleton (hready.pending _ List.mem_cons_self) hnew, fun final hresult => ?_⟩
    cases hresult

/-- A pending mark that comes first and is not set is expanded. -/
theorem Propagates.mem_expanded {result : Except Failure Marks}
    (h : subject.Propagates reductions (mark :: rest) marks expanded result)
    (hnew : marks.has mark = false) : mark ∈ expanded := by
  cases h with
  | skip hset => cases hset.symm.trans hnew
  | expand | fail => exact List.mem_cons_self

theorem requires_of_further (hb : subject.Bounded)
    (hr : reductions.size = subject.evaluation.size) (hfits : marks.Fits subject.evaluation.size)
    (h : subject.further simple reductions marks = .ok (following, reductions')) :
    Requires marks following ∧ reductions'.size = subject.evaluation.size := by
  obtain ⟨branches, hbranches, h⟩ := Except.bind_eq_ok.mp h
  obtain ⟨stores, hstores, h⟩ := Except.bind_eq_ok.mp h
  have hrequires : Requires marks (branches ++ stores) := fun m hm => (List.mem_append.mp hm).elim
    ((yields_straddlingBranches hb.sized hr hfits).2 _ hbranches m)
    ((yields_missingStores simple hr hfits).2 _ hstores m)
  dsimp only at h
  split at h
  · obtain ⟨loop, -, h⟩ := Except.bind_eq_ok.mp h
    cases loop with
    | none =>
      cases h
      exact ⟨hrequires, hr⟩
    | some offset =>
      cases h
      exact ⟨requires_require marks offset, by simpa using hr⟩
  · cases h
    exact ⟨hrequires, hr⟩

/-- What is pending after a pass are instructions that were not necessary. -/
theorem Ready.of_pass {propagated : Except Failure Marks} (hb : subject.Bounded)
    (h : subject.Ready reductions marks pending)
    (hpropagates : subject.Propagates reductions pending.reverse marks expanded propagated)
    (hpass : subject.pass simple reductions propagated = .ok (marks', following, reductions')) :
    subject.Ready reductions' marks' following ∧ Requires marks' following ∧
      marks.Extends marks' ∧ ∀ m ∈ expanded, marks'.has m = true := by
  obtain ⟨_, hpropagated, hpass⟩ := Except.bind_eq_ok.mp hpass
  obtain ⟨found, hfurther, hpass⟩ := Except.bind_eq_ok.mp hpass
  cases hpass
  obtain ⟨hextends, hset⟩ := (hpropagates.fresh hb h.reverse).2 _ hpropagated
  have hfits := hextends.fits h.fits
  obtain ⟨hrequires, hsize⟩ := requires_of_further hb h.sized hfits hfurther
  exact ⟨⟨hsize, hfits, mem_allMarks_of_requires hfits hrequires⟩, hrequires, hextends, hset⟩

/-- **A round expands every mark at most once.** -/
theorem Saturates.fresh {result : Except Failure (Marks × Reductions)} (hb : subject.Bounded)
    (h : subject.Saturates simple pending reductions marks passes result)
    (hready : subject.Ready reductions marks pending) :
    subject.Fresh marks passes.flatten ∧
      ∀ final reduced, result = .ok (final, reduced) → marks.Extends final := by
  induction h with
  | fail hpropagates hpass =>
    have hfresh := (hpropagates.fresh hb hready.reverse).1
    refine ⟨by rwa [List.flatten_singleton], fun final reduced hresult => ?_⟩
    cases hresult
  | settle hpropagates hpass =>
    have hfresh := (hpropagates.fresh hb hready.reverse).1
    refine ⟨by rwa [List.flatten_singleton], fun final reduced hresult => ?_⟩
    cases hresult
    exact (hready.of_pass hb hpropagates hpass).2.2.1
  | again hpropagates hpass _ _ ih =>
    have hfresh := (hpropagates.fresh hb hready.reverse).1
    obtain ⟨hready', -, hextends, hset⟩ := hready.of_pass hb hpropagates hpass
    obtain ⟨hlater, hfinal⟩ := ih hready'
    exact ⟨hfresh.append hextends hset hlater, fun final reduced hresult =>
      hextends.trans (hfinal final reduced hresult)⟩

/-- A pass that was asked for makes an instruction necessary. -/
theorem Saturates.exists_necessary {result : Except Failure (Marks × Reductions)}
    (hb : subject.Bounded)
    (h : subject.Saturates simple pending reductions marks passes result)
    (hready : subject.Ready reductions marks pending) (hrequires : Requires marks pending)
    (hmore : pending ≠ []) :
    ∀ expanded ∈ passes, ∃ offset < subject.evaluation.size, .necessary offset ∈ expanded := by
  have hfirst {pending expanded : List Mark} {reductions : Reductions} {marks : Marks}
      {propagated : Except Failure Marks}
      (hpropagates : subject.Propagates reductions pending.reverse marks expanded propagated)
      (hready : subject.Ready reductions marks pending) (hrequires : Requires marks pending)
      (hmore : pending ≠ []) :
      ∃ offset < subject.evaluation.size, .necessary offset ∈ expanded := by
    obtain ⟨mark, rest, hcons⟩ := List.exists_cons_of_ne_nil (List.reverse_ne_nil_iff.mpr hmore)
    have hmem : mark ∈ pending := List.mem_reverse.mp (hcons ▸ List.mem_cons_self)
    obtain ⟨offset, hrequire⟩ := hrequires mark hmem
    obtain ⟨rfl, -, hnew⟩ := Marks.mem_require.mp hrequire
    exact ⟨offset, necessary_mem_allMarks.mp (hready.pending _ hmem),
      (hcons ▸ hpropagates).mem_expanded hnew⟩
  induction h with
  | fail hpropagates _ | settle hpropagates _ =>
    simpa using hfirst hpropagates hready hrequires hmore
  | again hpropagates hpass hmore' _ ih =>
    obtain ⟨hready', hrequires', -⟩ := hready.of_pass hb hpropagates hpass
    exact List.forall_mem_cons.mpr
      ⟨hfirst hpropagates hready hrequires hmore, ih hready' hrequires' hmore'⟩

/-- Every pass but the first makes an instruction necessary. -/
theorem Saturates.exists_necessary_tail {result : Except Failure (Marks × Reductions)}
    (hb : subject.Bounded)
    (h : subject.Saturates simple pending reductions marks passes result)
    (hready : subject.Ready reductions marks pending) :
    ∀ expanded ∈ passes.tail,
      ∃ offset < subject.evaluation.size, .necessary offset ∈ expanded := by
  cases h with
  | fail | settle => simp
  | again hpropagates hpass hmore hpasses =>
    obtain ⟨hready', hrequires, -⟩ := hready.of_pass hb hpropagates hpass
    exact hpasses.exists_necessary hb hready' hrequires hmore

/-! ## Counting -/

/-- If passes expand no mark twice, and each of them makes an instruction necessary, there are at
most as many as there are offsets. -/
theorem length_le_of_nodup {size : Nat} (hnodup : passes.flatten.Nodup)
    (hall : ∀ expanded ∈ passes, ∃ offset < size, .necessary offset ∈ expanded) :
    passes.length ≤ size := by
  have hoffsets : ∃ offsets : List Nat, offsets.length = passes.length ∧ offsets.Nodup ∧
      ∀ offset ∈ offsets, offset < size ∧ .necessary offset ∈ passes.flatten := by
    induction passes with
    | nil => exact ⟨[], rfl, .nil, by simp⟩
    | cons expanded passes ih =>
      rw [List.flatten_cons, List.nodup_append] at hnodup
      obtain ⟨-, hnodup, hdisjoint⟩ := hnodup
      obtain ⟨hhead, htail⟩ := List.forall_mem_cons.mp hall
      obtain ⟨offset, hlt, hmem⟩ := hhead
      obtain ⟨offsets, hlength, hdistinct, hknown⟩ := ih hnodup htail
      have hnew : offset ∉ offsets := fun hold => hdisjoint _ hmem _ (hknown offset hold).2 rfl
      refine ⟨offset :: offsets, by simp [hlength], List.nodup_cons.mpr ⟨hnew, hdistinct⟩,
        List.forall_mem_cons.mpr ⟨⟨hlt, ?_⟩, fun other hother => ?_⟩⟩
      · exact List.mem_append_left _ hmem
      · exact (hknown other hother).imp_right (List.mem_append_right _)
  obtain ⟨offsets, hlength, hdistinct, hknown⟩ := hoffsets
  have hsubset : offsets ⊆ List.range size := fun offset hmem =>
    List.mem_range.mpr (hknown offset hmem).1
  have hle := (List.subperm_of_subset hdistinct hsubset).length_le
  rwa [hlength, List.length_range] at hle

/-- **What a round does not do**: expand a mark twice, or make a pass without need. -/
structure Round.Frugal (size : Nat) (round : Round) : Prop where
  /-- There is at most one pass more than there are offsets. -/
  passes : round.passes.length ≤ size + 1
  /-- Every pass but the first makes an instruction necessary that was not. -/
  grows : ∀ expanded ∈ round.passes.tail, ∃ offset < size, .necessary offset ∈ expanded
  /-- No mark is expanded twice, in whatever pass. -/
  once : round.passes.flatten.Nodup

/-- **What marking does not do**: make a round without need. -/
structure Frugal (subject : Subject) (rounds : List Round) : Prop where
  /-- There is at most one round more than there are entries in the exception table. -/
  count : rounds.length ≤ subject.code.handlers.length + 1
  /-- Every round has fewer live handlers than those before. -/
  fewer : rounds.Pairwise fun earlier later => later.live.count true < earlier.live.count true
  /-- Every round is frugal. -/
  each : ∀ round ∈ rounds, round.Frugal subject.code.size

theorem ready_of_prepare {roots : List Mark} (hb : subject.Bounded)
    (hr : reductions.size = subject.evaluation.size)
    (h : subject.prepare reductions live = .ok (marks, simple, roots)) :
    subject.Ready reductions marks roots ∧ marks.liveHandlers = live := by
  obtain ⟨_, hunmarked, h⟩ := Except.bind_eq_ok.mp h
  obtain ⟨_, -, h⟩ := Except.bind_eq_ok.mp h
  obtain ⟨_, hroots, h⟩ := Except.bind_eq_ok.mp h
  cases h
  obtain ⟨hfits, hlive⟩ := (yields_unmarked hb.sized live).2 _ hunmarked
  exact ⟨⟨hr, hfits, (yields_roots hr hfits).2 _ hroots⟩, hlive⟩

theorem MarksWith.frugal {result : Except Failure (Marks × Reductions)} (hb : subject.Bounded)
    (hr : reductions.size = subject.evaluation.size)
    (h : subject.MarksWith reductions live passes result) :
    Round.Frugal subject.evaluation.size ⟨live, passes⟩ ∧
      ∀ final reduced, result = .ok (final, reduced) → final.liveHandlers = live := by
  cases h with
  | fail =>
    refine ⟨⟨Nat.zero_le _, by simp, by simp⟩, fun final reduced hresult => ?_⟩
    cases hresult
  | pass hprepare hpasses =>
    obtain ⟨hready, hlive⟩ := ready_of_prepare hb hr hprepare
    obtain ⟨hfresh, hfinal⟩ := hpasses.fresh hb hready
    have hgrows := hpasses.exists_necessary_tail hb hready
    refine ⟨⟨?_, hgrows, hfresh.nodup⟩, fun final reduced hresult => ?_⟩
    · have htail : passes.tail.flatten.Nodup := hfresh.nodup.sublist (by
        cases passes with
        | nil => exact List.Sublist.refl _
        | cons expanded passes => exact List.sublist_append_right _ _)
      have hle := length_le_of_nodup htail hgrows
      rw [List.length_tail] at hle
      simp only
      omega
    · exact (hfinal final reduced hresult).liveHandlers.trans hlive

/-- **A round is made again only for fewer live handlers.** -/
theorem MarksFrom.frugal {result : Except Failure (Marks × Reductions)} {rounds : List Round}
    (hb : subject.Bounded) (hr : reductions.size = subject.evaluation.size)
    (h : subject.MarksFrom reductions live rounds result)
    (hlength : live.length = subject.code.handlers.length) :
    rounds.length ≤ live.count true + 1 ∧
      (∀ round ∈ rounds, round.live.count true ≤ live.count true) ∧
      (rounds.Pairwise fun earlier later => later.live.count true < earlier.live.count true) ∧
      ∀ round ∈ rounds, round.Frugal subject.evaluation.size := by
  induction h with
  | fail hround | settle hround _ => simpa using (hround.frugal hb hr).1
  | again hround hfewer _ ih =>
    obtain ⟨hfrugal, hlive⟩ := hround.frugal hb hr
    have hkept := hlive _ _ rfl
    obtain ⟨hlength', hleft⟩ := subject.stillLive_spec (hkept ▸ hlength)
    rw [hkept] at hleft
    have hless := count_lt_of_forall₂ hleft hfewer
    obtain ⟨hcount, hbelow, hpairwise, hall⟩ := ih hlength'
    refine ⟨by simp only [List.length_cons]; omega, List.forall_mem_cons.mpr ⟨Nat.le_refl _, ?_⟩,
      List.pairwise_cons.mpr ⟨?_, hpairwise⟩, List.forall_mem_cons.mpr ⟨hfrugal, hall⟩⟩
    · exact fun round hmem => Nat.le_trans (hbelow round hmem) (Nat.le_of_lt hless)
    · exact fun round hmem => Nat.lt_of_le_of_lt (hbelow round hmem) hless

variable (subject) in
/-- **Marking ends.** For every body that is evaluated, and reductions for all of its offsets, the
loops of marking have exactly one run. It ends with what `Subject.mark` gives, which is never that a
bound was too small. There is at most one round more than there are handlers and at most one pass in
a round more than there are offsets; every pass but the first makes an instruction necessary; and a
round expands no mark twice, so that the worklist becomes empty in every pass that does not fail. -/
theorem mark_ends {options : EvaluationOptions}
    (hevaluate : evaluate options subject.pool subject.owner subject.method subject.code =
      .ok subject.evaluation)
    (hsize : original.size = subject.evaluation.size) :
    Faultless (subject.mark original) ∧ ∃ rounds,
      subject.MarksFrom original
        (subject.code.handlers.map fun handler => subject.evaluation.isTraced handler.target)
        rounds (subject.mark original) ∧
      subject.Frugal rounds ∧
      ∀ rounds' result, subject.MarksFrom original
        (subject.code.handlers.map fun handler => subject.evaluation.isTraced handler.target)
        rounds' result → rounds' = rounds ∧ result = subject.mark original := by
  have hb := bounded_of_evaluate hevaluate
  have hfaultless := (yields_mark hb hsize).1
  have hended : subject.mark original ≠ .error (.fault .exhausted) := fun hstuck =>
    Bool.false_ne_true (hfaultless _ hstuck).symm
  obtain ⟨rounds, hrounds⟩ := marksFrom_of_markFrom rfl hended
  obtain ⟨hcount, -, hpairwise, hall⟩ := hrounds.frugal hb hsize (List.length_map _)
  have hlisted : subject.evaluation.size = subject.code.size :=
    Listing.size_of_ofCode (closed_of_evaluate hevaluate).2.1
  refine ⟨hfaultless, rounds, hrounds, ⟨Nat.le_trans hcount (Nat.succ_le_succ ?_), hpairwise, ?_⟩,
    fun rounds' result h => hrounds.unique h⟩
  · exact Nat.le_trans List.count_le_length (Nat.le_of_eq (List.length_map _))
  · exact fun round hmem => hlisted ▸ hall round hmem

end Subject

/-- The loop behind the call is marked in two rounds at most, as there is one handler. -/
theorem mark_ends_guardedWait : ∃ decision sideEffects original rounds,
    guardedWait.decide guardedPool = .ok decision ∧
      (guardedWait.subject guardedPool decision.evaluation sideEffects).MarksFrom original
        [decision.evaluation.isTraced 13] rounds (.ok (decision.marks, decision.reductions)) ∧
      rounds.length ≤ 2 ∧
      ∀ round ∈ rounds, round.passes.length ≤ 17 ∧ round.passes.flatten.Nodup := by
  obtain ⟨decision, hdecide, -⟩ := Except.exists_ok_of_any
    (by decide +kernel : (guardedWait.decide guardedPool).toOption.any (fun _ => true) = true)
  obtain ⟨sideEffects, original, hevaluate, -, hreductions, hmark⟩ :=
    MethodContext.exists_of_decide hdecide
  have hfits := (guardedWait.yields_decide guardedPool).2 decision hdecide
  have hsize := (yields_reductions _ sideEffects hfits.sized hfits.listed).2 original hreductions
  obtain ⟨-, rounds, hrounds, hfrugal, -⟩ := Subject.mark_ends
    (guardedWait.subject guardedPool decision.evaluation sideEffects) hevaluate hsize
  rw [hmark] at hrounds
  exact ⟨decision, sideEffects, original, rounds, hdecide, hrounds, hfrugal.count,
    fun round hmem => ⟨(hfrugal.each round hmem).passes, (hfrugal.each round hmem).once⟩⟩

end JvmTrim
