import JvmTrim.Simplify.StackPlan
import Mathlib.Data.List.Forall2

/-!
# Plans of stack manipulations are right

The search keeps with every list of words the manipulations that lead there from the given words, so
a sequence that it finds turns the given words into the wanted ones, and all its steps are legal.

It is also the shortest one. The search goes level by level: after as many rounds as a sequence is
long, the words that the sequence leads to have been seen, although most of them were passed over
because a sequence of the same length or a shorter one led there before. What carries this is that
words that have been seen are those of the last round, or nothing that one manipulation makes of them
is new.

## Main definitions

* `Shuffle.moveAll?`: the words after a sequence of manipulations
* `Shuffle.Moves`, `Shuffle.Carries`: what one manipulation and a sequence of them do to words
* `PlanLevel`: what the search has seen after some rounds

## Main results

* `moveAll?_of_planShuffles?`: a plan does what was asked for
* `planShuffles?_shortest`: no plan is shorter, and without a plan there is no short sequence
-/

namespace JvmTrim

/-- The words after a sequence of manipulations, if all of them are legal. -/
def Shuffle.moveAll? (plan : List Shuffle) (words : List Word) : Option (List Word) :=
  plan.foldlM (fun words move => move.moveWords? words) words

open Shuffle

theorem Shuffle.moveAll?_concat {plan : List Shuffle} {move : Shuffle} {inputs words : List Word}
    (h : moveAll? plan inputs = some words) :
    moveAll? (plan ++ [move]) inputs = move.moveWords? words := by
  unfold moveAll? at h ⊢
  rw [List.foldlM_append, h]
  simp

variable {inputs goal : List Word}

/-- Whether a state of the search can be reached from the given words as it says. -/
def PlanState.IsFrom (inputs : List Word) (state : PlanState) : Prop :=
  moveAll? state.2.reverse inputs = some state.1

/-- Whether a round of the search is right about what it found and reached. -/
structure PlanRound.Sound (inputs goal : List Word) (round : PlanRound) : Prop where
  found : ∀ plan, round.found = some plan → moveAll? plan inputs = some goal
  reached : ∀ state ∈ round.reached, PlanState.IsFrom inputs state

theorem PlanRound.Sound.attempt {state : PlanState} {round : PlanRound}
    (h : round.Sound inputs goal) (hstate : PlanState.IsFrom inputs state) (move : Shuffle) :
    (round.attempt goal state move).Sound inputs goal := by
  unfold PlanRound.attempt
  split
  · exact h
  · exact h
  · rename_i words _ hwords
    have hmoved : moveAll? (move :: state.2).reverse inputs = some words := by
      rw [List.reverse_cons, moveAll?_concat hstate, hwords]
    dsimp only
    split
    · rename_i hgoal
      subst hgoal
      refine ⟨fun plan hplan => ?_, h.reached⟩
      cases hplan
      exact hmoved
    · split
      · exact h
      · refine ⟨h.found, fun other hother => ?_⟩
        rcases List.mem_cons.mp hother with rfl | hother
        · exact hmoved
        · exact h.reached other hother

/-- A round over states that can be reached. -/
theorem sound_planRound {states : List PlanState} (goal : List Word) (seen : List (List Word))
    (h : ∀ state ∈ states, PlanState.IsFrom inputs state) :
    (planRound goal states seen).Sound inputs goal := by
  unfold planRound
  have hmoves (moves : List Shuffle) (state : PlanState) (hstate : PlanState.IsFrom inputs state)
      (round : PlanRound) (hround : round.Sound inputs goal) :
      (moves.foldl (PlanRound.attempt goal state) round).Sound inputs goal := by
    induction moves generalizing round with
    | nil => exact hround
    | cons move rest ih => exact ih _ (hround.attempt hstate move)
  have hstart : PlanRound.Sound inputs goal ⟨none, [], seen⟩ := ⟨by simp, by simp⟩
  revert hstart
  generalize (⟨none, [], seen⟩ : PlanRound) = round
  intro hround
  induction states generalizing round with
  | nil => exact hround
  | cons state rest ih =>
    refine ih (fun other ho => h other (List.mem_cons_of_mem _ ho)) _ ?_
    exact hmoves _ state (h state List.mem_cons_self) round hround

theorem moveAll?_of_searchPlan {bound : Nat} {states : List PlanState} {seen : List (List Word)}
    {plan : List Shuffle} (h : ∀ state ∈ states, PlanState.IsFrom inputs state)
    (hplan : searchPlan goal bound states seen = some plan) :
    moveAll? plan inputs = some goal := by
  induction bound generalizing states seen with
  | zero => cases hplan
  | succ bound ih =>
    have hsound := sound_planRound goal seen h
    rw [searchPlan] at hplan
    split at hplan
    · rename_i sequence hfound
      cases hplan
      exact hsound.found plan hfound
    · exact ih (fun state hs => hsound.reached state (List.mem_reverse.mp hs)) hplan

/-- **A plan does what was asked for.** -/
theorem moveAll?_of_planShuffles? {outputs : List Word} {plan : List Shuffle}
    (h : planShuffles? inputs outputs = some plan) : moveAll? plan inputs = some outputs := by
  unfold planShuffles? at h
  split at h
  · rename_i hsame
    cases h
    rw [hsame]
    rfl
  · refine moveAll?_of_searchPlan (fun state hs => ?_) h
    rw [List.mem_singleton.mp hs]
    rfl

/-! ## What a manipulation does to words -/

namespace Shuffle

/-- **What a legal manipulation does to words** listed bottom to top: it fits, it takes words from the
top, and it gives copies of words that it took in their place. -/
structure Moves (move : Shuffle) (words moved : List Word) : Prop where
  fits : move.fits (words.map Word.isUpper).toArray = true
  copies : ∃ below taken given, words = below ++ taken ∧ taken.length = move.pops ∧
    List.Forall₂ (fun source word => taken[source]? = some word) move.outputs given ∧
    moved = below ++ given

/-- What a sequence of legal manipulations does to words. -/
inductive Carries : List Shuffle → List Word → List Word → Prop where
  | nil (words : List Word) : Carries [] words words
  | cons {move : Shuffle} {rest : List Shuffle} {words middle moved : List Word}
      (hmove : move.Moves words middle) (hrest : Carries rest middle moved) :
      Carries (move :: rest) words moved

theorem pops_le_of_fits {move : Shuffle} {upper : Array Bool} (h : move.fits upper = true) :
    move.pops ≤ upper.size := by
  rw [fits, Bool.and_eq_true, decide_eq_true_eq] at h
  exact h.1

theorem forall₂_getElem?_iff {taken given : List Word} {sources : List Nat}
    (h : ∀ source ∈ sources, source < taken.length) :
    List.Forall₂ (fun source word => taken[source]? = some word) sources given ↔
      sources.filterMap (taken[·]?) = given := by
  induction sources generalizing given with
  | nil => cases given <;> simp
  | cons source rest ih =>
    rw [List.forall_mem_cons] at h
    have hget := List.getElem?_eq_getElem h.1
    rw [List.filterMap_cons_some hget]
    constructor
    · rintro (_ | ⟨hword, hrest⟩)
      cases hget.symm.trans hword
      rw [(ih h.2).mp hrest]
    · rintro rfl
      exact .cons hget ((ih h.2).mpr rfl)

theorem moveWords?_eq_some_iff {move : Shuffle} {words moved : List Word} :
    move.moveWords? words = some moved ↔ move.Moves words moved := by
  have hcopies (taken given : List Word) (hlength : taken.length = move.pops) :
      List.Forall₂ (fun source word => taken[source]? = some word) move.outputs given ↔
        move.outputs.filterMap (taken[·]?) = given :=
    forall₂_getElem?_iff fun source hs => hlength ▸ lt_pops_of_mem_outputs hs
  unfold moveWords? moved?
  rw [List.map_toArray]
  constructor
  · intro h
    split at h
    · rename_i hfits
      have hle : move.pops ≤ words.length := by simpa using pops_le_of_fits hfits
      have hlength : (words.drop (words.length - move.pops)).length = move.pops := by
        rw [List.length_drop]
        omega
      refine ⟨hfits, words.take (words.length - move.pops), words.drop (words.length - move.pops), _,
        (List.take_append_drop _ _).symm, hlength, (hcopies _ _ hlength).mpr rfl, ?_⟩
      rw [← Option.some.inj h]
      simp
    · cases h
  · rintro ⟨hfits, below, taken, given, rfl, hlength, hgiven, rfl⟩
    rw [if_pos hfits, ← (hcopies taken given hlength).mp hgiven]
    have hbase : below.length + taken.length - move.pops = below.length := by omega
    simp [hbase, List.getElem?_append_right]

theorem moveAll?_eq_some_iff {plan : List Shuffle} {words moved : List Word} :
    moveAll? plan words = some moved ↔ Carries plan words moved := by
  induction plan generalizing words with
  | nil =>
    constructor
    · rintro ⟨⟩
      exact .nil _
    · rintro ⟨⟩
      rfl
  | cons move rest ih =>
    constructor
    · intro h
      obtain ⟨middle, hmove, hrest⟩ := Option.bind_eq_some_iff.mp h
      exact .cons (moveWords?_eq_some_iff.mp hmove) (ih.mp hrest)
    · rintro (_ | ⟨hmove, hrest⟩)
      exact Option.bind_eq_some_iff.mpr
        ⟨_, moveWords?_eq_some_iff.mpr hmove, ih.mpr hrest⟩

/-- The last step of a sequence. -/
theorem moveAll?_of_concat {plan : List Shuffle} {move : Shuffle} {words moved : List Word}
    (h : moveAll? (plan ++ [move]) words = some moved) :
    ∃ middle, moveAll? plan words = some middle ∧ move.moveWords? middle = some moved := by
  unfold moveAll? at h
  rw [List.foldlM_append] at h
  obtain ⟨middle, hplan, hmove⟩ := Option.bind_eq_some_iff.mp h
  exact ⟨middle, hplan, by simpa using hmove⟩

theorem mem_all (move : Shuffle) : move ∈ all := by
  cases move <;> decide

end Shuffle

/-! ## Level by level -/

/-- What the search has seen after `level` rounds without finding the goal: all words that sequences
of at most `level` manipulations lead to. Words are in the last round, or nothing that a manipulation
makes of them is new. -/
structure PlanLevel (inputs goal : List Word) (level : Nat) (states : List PlanState)
    (seen : List (List Word)) : Prop where
  isFrom : ∀ state ∈ states, PlanState.IsFrom inputs state ∧ state.2.length = level
  complete : ∀ plan words, plan.length ≤ level → moveAll? plan inputs = some words → words ∈ seen
  expanded : ∀ words ∈ seen, (∃ path, (words, path) ∈ states) ∨
    ∀ move next, Shuffle.moveWords? move words = some next → next ∈ seen
  missed : goal ∉ seen

/-- How far a round has extended what had been seen after `level` rounds. -/
structure PlanRound.Extends (goal : List Word) (level : Nat) (seen : List (List Word))
    (round : PlanRound) : Prop where
  found : ∀ plan, round.found = some plan → plan.length = level + 1
  reached : ∀ state ∈ round.reached, state.2.length = level + 1
  kept : ∀ words ∈ seen, words ∈ round.seen
  new : ∀ words ∈ round.seen, words ∈ seen ∨ ∃ path, (words, path) ∈ round.reached
  missed : goal ∉ round.seen

/-- A round as one attempt after the other. -/
theorem planRound_eq_foldl (goal : List Word) (states : List PlanState)
    (seen : List (List Word)) :
    planRound goal states seen =
      (states.flatMap fun state => all.map (state, ·)).foldl
        (fun round attempt => round.attempt goal attempt.1 attempt.2) ⟨none, [], seen⟩ := by
  rw [List.foldl_flatMap]
  simp only [List.foldl_map]
  rfl

/-- What one attempt does: it takes nothing back, and unless the goal is found the words that it leads
to have been seen. -/
theorem PlanRound.Extends.attempt {level : Nat} {seen : List (List Word)} {round : PlanRound}
    {state : PlanState} (h : round.Extends goal level seen) (hlength : state.2.length = level)
    (move : Shuffle) :
    (round.attempt goal state move).Extends goal level seen ∧
      (∀ words ∈ round.seen, words ∈ (round.attempt goal state move).seen) ∧
      ((round.attempt goal state move).found = none → round.found = none ∧
        ∀ next, move.moveWords? state.1 = some next →
          next ∈ (round.attempt goal state move).seen) := by
  unfold PlanRound.attempt
  split
  · -- found before
    rename_i plan hfound
    exact ⟨h, fun _ hw => hw, fun hnone => absurd (hfound.symm.trans hnone) (by simp)⟩
  · -- not legal
    rename_i hfound hmove
    exact ⟨h, fun _ hw => hw, fun _ => ⟨hfound, by simp [hmove]⟩⟩
  · rename_i words hfound hmove
    have hlength' : (move :: state.2).length = level + 1 := by rw [List.length_cons, hlength]
    dsimp only
    split
    · refine ⟨⟨fun plan hplan => ?_, h.reached, h.kept, h.new, h.missed⟩, fun _ hw => hw, ?_⟩
      · rw [← Option.some.inj hplan, List.length_reverse, hlength']
      · simp
    · rename_i hgoal
      split
      · rename_i hseen
        refine ⟨h, fun _ hw => hw, fun _ => ⟨hfound, fun next hnext => ?_⟩⟩
        cases hmove.symm.trans hnext
        simpa using hseen
      · refine ⟨⟨h.found, fun other hother => ?_, fun w hw => ?_, fun w hw => ?_, fun hw => ?_⟩,
          fun w hw => List.mem_cons_of_mem _ hw, fun _ => ⟨hfound, fun next hnext => ?_⟩⟩
        · rcases List.mem_cons.mp hother with rfl | hother
          · exact hlength'
          · exact h.reached other hother
        · exact List.mem_cons_of_mem _ (h.kept w hw)
        · rcases List.mem_cons.mp hw with rfl | hw
          · exact .inr ⟨_, List.mem_cons_self⟩
          · exact (h.new w hw).imp_right fun ⟨path, hpath⟩ => ⟨path, List.mem_cons_of_mem _ hpath⟩
        · exact (List.mem_cons.mp hw).elim (fun he => hgoal he.symm) h.missed
        · cases hmove.symm.trans hnext
          exact List.mem_cons_self

/-- What attempts do one after the other. -/
theorem PlanRound.Extends.attempts {level : Nat} {seen : List (List Word)}
    (attempts : List (PlanState × Shuffle)) {round : PlanRound}
    (hall : ∀ attempt ∈ attempts, attempt.1.2.length = level)
    (h : round.Extends goal level seen) :
    let final := attempts.foldl (fun round attempt => round.attempt goal attempt.1 attempt.2) round
    final.Extends goal level seen ∧ (∀ words ∈ round.seen, words ∈ final.seen) ∧
      (final.found = none → round.found = none ∧ ∀ attempt ∈ attempts, ∀ next,
        attempt.2.moveWords? attempt.1.1 = some next → next ∈ final.seen) := by
  induction attempts generalizing round with
  | nil => exact ⟨h, fun _ hw => hw, fun hnone => ⟨hnone, by simp⟩⟩
  | cons attempt rest ih =>
    rw [List.forall_mem_cons] at hall
    obtain ⟨hnext, hgrows, htried⟩ := h.attempt hall.1 attempt.2
    obtain ⟨hfinal, hgrows', htried'⟩ := ih hall.2 hnext
    refine ⟨hfinal, fun w hw => hgrows' w (hgrows w hw), fun hnone => ?_⟩
    obtain ⟨hnone', hrest⟩ := htried' hnone
    obtain ⟨hnone'', hfirst⟩ := htried hnone'
    refine ⟨hnone'', List.forall_mem_cons.mpr ⟨fun next hmove => ?_, hrest⟩⟩
    exact hgrows' next (hfirst next hmove)

/-- What a round does: unless it finds the goal, it has seen all that one manipulation makes of the
words of its states. -/
theorem extends_planRound {level : Nat} {states : List PlanState} {seen : List (List Word)}
    (hlength : ∀ state ∈ states, state.2.length = level) (hmissed : goal ∉ seen) :
    (planRound goal states seen).Extends goal level seen ∧
      ((planRound goal states seen).found = none → ∀ state ∈ states, ∀ move next,
        Shuffle.moveWords? move state.1 = some next → next ∈ (planRound goal states seen).seen) := by
  have hstart : PlanRound.Extends goal level seen ⟨none, [], seen⟩ :=
    ⟨by simp, by simp, fun _ hw => hw, fun _ hw => .inl hw, hmissed⟩
  have hall : ∀ attempt ∈ states.flatMap fun state => all.map (state, ·),
      attempt.1.2.length = level := by
    intro attempt hattempt
    obtain ⟨state, hstate, hattempt⟩ := List.mem_flatMap.mp hattempt
    obtain ⟨move, -, rfl⟩ := List.mem_map.mp hattempt
    exact hlength state hstate
  rw [planRound_eq_foldl]
  obtain ⟨hextends, -, htried⟩ := hstart.attempts _ hall
  refine ⟨hextends, fun hnone state hstate move next hmove => ?_⟩
  exact (htried hnone).2 (state, move) (List.mem_flatMap.mpr
    ⟨state, hstate, List.mem_map.mpr ⟨move, mem_all move, rfl⟩⟩) next hmove

theorem PlanLevel.start (h : inputs ≠ goal) : PlanLevel inputs goal 0 [(inputs, [])] [inputs] where
  isFrom state hs := by
    rw [List.mem_singleton.mp hs]
    exact ⟨rfl, rfl⟩
  complete plan words hlength hplan := by
    rw [List.length_eq_zero_iff.mp (Nat.le_zero.mp hlength)] at hplan
    cases hplan
    exact List.mem_singleton_self _
  expanded words hw := by
    rw [List.mem_singleton.mp hw]
    exact .inl ⟨[], List.mem_singleton_self _⟩
  missed hmem := h (List.mem_singleton.mp hmem).symm

/-- A round that does not find the goal completes the next level. -/
theorem PlanLevel.next {level : Nat} {states : List PlanState} {seen : List (List Word)}
    (h : PlanLevel inputs goal level states seen)
    (hnone : (planRound goal states seen).found = none) :
    PlanLevel inputs goal (level + 1) (planRound goal states seen).reached.reverse
      (planRound goal states seen).seen := by
  have hsound := sound_planRound goal seen fun state hs => (h.isFrom state hs).1
  obtain ⟨hextends, htried⟩ := extends_planRound (fun state hs => (h.isFrom state hs).2) h.missed
  have hexpanded (words : List Word) (hw : words ∈ seen) (move : Shuffle) (next : List Word)
      (hmove : move.moveWords? words = some next) : next ∈ (planRound goal states seen).seen := by
    rcases h.expanded words hw with ⟨path, hpath⟩ | hclosed
    · exact htried hnone (words, path) hpath move next hmove
    · exact hextends.kept next (hclosed move next hmove)
  refine ⟨fun state hs => ?_, fun plan words hlength hplan => ?_, fun words hw => ?_,
    hextends.missed⟩
  · rw [List.mem_reverse] at hs
    exact ⟨hsound.reached state hs, hextends.reached state hs⟩
  · rcases List.eq_nil_or_concat' plan with rfl | ⟨start, move, rfl⟩
    · exact hextends.kept words (h.complete [] words (Nat.zero_le _) hplan)
    · obtain ⟨middle, hstart, hmove⟩ := moveAll?_of_concat hplan
      rw [List.length_append, List.length_singleton] at hlength
      exact hexpanded middle (h.complete start middle (by omega) hstart) move words hmove
  · rcases hextends.new words hw with hold | ⟨path, hpath⟩
    · exact .inr (hexpanded words hold)
    · exact .inl ⟨path, List.mem_reverse.mpr hpath⟩

theorem PlanLevel.lt_length {level : Nat} {states : List PlanState} {seen : List (List Word)}
    (h : PlanLevel inputs goal level states seen) {other : List Shuffle}
    (hother : moveAll? other inputs = some goal) : level < other.length := by
  by_contra hle
  exact h.missed (h.complete other goal (by omega) hother)

/-- What the search finds is one longer than a level at which the goal had not been seen, and if it
finds nothing, no level within its bound has the goal. -/
theorem searchPlan_spec (bound : Nat) {level : Nat} {states : List PlanState}
    {seen : List (List Word)} (h : PlanLevel inputs goal level states seen) :
    (∀ plan, searchPlan goal bound states seen = some plan → plan.length ≤ level + bound ∧
      ∀ other, moveAll? other inputs = some goal → plan.length ≤ other.length) ∧
      (searchPlan goal bound states seen = none → ∀ other, moveAll? other inputs = some goal →
        level + bound < other.length) := by
  induction bound generalizing level states seen with
  | zero => exact ⟨fun plan hplan => (by cases hplan), fun _ _ => h.lt_length⟩
  | succ bound ih =>
    rw [searchPlan]
    cases hround : (planRound goal states seen).found with
    | some found =>
      have hlength := (extends_planRound (fun state hs => (h.isFrom state hs).2) h.missed).1.found
        found hround
      refine ⟨fun plan hplan => ?_, fun hnone => by cases hnone⟩
      cases hplan
      exact ⟨by omega, fun other hother => hlength ▸ h.lt_length hother⟩
    | none =>
      have hnext := ih (h.next hround)
      rw [Nat.add_right_comm] at hnext
      exact hnext

/-- **The plans are the shortest ones.** A plan consists of at most three legal manipulations that
turn the inputs into the outputs, and no shorter sequence does; without a plan, no sequence of at most
three does. -/
theorem planShuffles?_shortest (inputs outputs : List Word) :
    (∀ plan, planShuffles? inputs outputs = some plan → plan.length ≤ 3 ∧
      Carries plan inputs outputs ∧
      ∀ other, Carries other inputs outputs → plan.length ≤ other.length) ∧
    (planShuffles? inputs outputs = none →
      ∀ other, other.length ≤ 3 → ¬ Carries other inputs outputs) := by
  have hcarries (plan : List Shuffle) (h : planShuffles? inputs outputs = some plan) :
      Carries plan inputs outputs :=
    moveAll?_eq_some_iff.mp (moveAll?_of_planShuffles? h)
  by_cases hsame : inputs = outputs
  · have hplan : planShuffles? inputs outputs = some [] := if_pos hsame
    refine ⟨fun plan h => ?_, fun h => ?_⟩
    · cases hplan.symm.trans h
      exact ⟨Nat.zero_le _, hcarries [] hplan, fun other _ => Nat.zero_le _⟩
    · cases hplan.symm.trans h
  · have hsearch : planShuffles? inputs outputs =
        searchPlan outputs longestPlan [(inputs, [])] [inputs] := if_neg hsame
    obtain ⟨hsome, hnone⟩ := searchPlan_spec longestPlan (.start hsame)
    rw [← hsearch] at hsome hnone
    refine ⟨fun plan h => ?_, fun h other hlength hother => ?_⟩
    · obtain ⟨hlength, hshortest⟩ := hsome plan h
      refine ⟨by simpa [longestPlan] using hlength, hcarries plan h, fun other hother => ?_⟩
      exact hshortest other (moveAll?_eq_some_iff.mpr hother)
    · have hlonger := hnone h other (moveAll?_eq_some_iff.mpr hother)
      simp only [longestPlan] at hlonger
      omega

/-- Moving a word over a two-word value takes two manipulations, as `swap` would cut the value in
half, and there is no way to make seven words of one with three. -/
theorem planShuffles?_shortest_rotation :
    planShuffles? [⟨0, false⟩, ⟨1, false⟩, ⟨2, true⟩] [⟨1, false⟩, ⟨2, true⟩, ⟨0, false⟩] =
        some [.dup2X1, .pop2] ∧
      (∀ other, Carries other [⟨0, false⟩, ⟨1, false⟩, ⟨2, true⟩]
        [⟨1, false⟩, ⟨2, true⟩, ⟨0, false⟩] → 2 ≤ other.length) ∧
      ∀ other, other.length ≤ 3 →
        ¬ Carries other [⟨0, false⟩] (List.replicate 7 ⟨0, false⟩) := by
  have hplan : planShuffles? [⟨0, false⟩, ⟨1, false⟩, ⟨2, true⟩]
      [⟨1, false⟩, ⟨2, true⟩, ⟨0, false⟩] = some [.dup2X1, .pop2] := by decide +kernel
  exact ⟨hplan, ((planShuffles?_shortest _ _).1 _ hplan).2.2,
    (planShuffles?_shortest _ _).2 (by decide +kernel)⟩

end JvmTrim
