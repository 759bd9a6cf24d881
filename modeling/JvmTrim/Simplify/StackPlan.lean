import JvmTrim.Shuffle

/-!
# Planning stack manipulations

Once some of the words that a stack manipulation takes and gives are gone, it is replaced by the
shortest sequence of stack manipulations that turns the words that are left into the words that are
wanted. Sequences of up to three are tried, shorter ones first and then in a fixed order of
preference, so that a manipulation of which nothing is gone is found again.

## Main definitions

* `Word`: a stack word that remembers which input it copies
* `planShuffles?`: the shortest sequence
-/

namespace JvmTrim

/-- A stack word. -/
structure Word where
  /-- The input word that it is a copy of. -/
  source : Nat
  /-- Whether it is the upper half of a two-word value. -/
  isUpper : Bool
  deriving DecidableEq, Repr, Inhabited

/-- All stack manipulations in order of preference. -/
def Shuffle.all : List Shuffle :=
  [.pop, .pop2, .dup, .dupX1, .dupX2, .dup2, .dup2X1, .dup2X2, .swap]

/-- The words after a manipulation of words listed bottom to top, if it is legal. -/
def Shuffle.moveWords? (move : Shuffle) (words : List Word) : Option (List Word) :=
  (move.moved? Word.isUpper words.toArray).map (·.toList)

/-- A state of the search: words, and the manipulations that lead there, the latest first. -/
abbrev PlanState := List Word × List Shuffle

/-- A round of the search, of which `found` is the answer if there is one. -/
structure PlanRound where
  /-- The sequence that gives the wanted words. -/
  found : Option (List Shuffle)
  /-- The states reached for the first time in this round, the latest first. -/
  reached : List PlanState
  /-- All words reached so far. -/
  seen : List (List Word)

/-- Tries one manipulation. -/
def PlanRound.attempt (goal : List Word) (state : PlanState) (round : PlanRound) (move : Shuffle) :
    PlanRound :=
  match round.found, move.moveWords? state.1 with
  | some _, _ => round
  | none, none => round
  | none, some words =>
    let sequence := move :: state.2
    if words = goal then { round with found := some sequence.reverse }
    else if round.seen.contains words then round
    else { round with reached := (words, sequence) :: round.reached, seen := words :: round.seen }

/-- Tries every manipulation in every state. -/
def planRound (goal : List Word) (states : List PlanState) (seen : List (List Word)) : PlanRound :=
  states.foldl (fun round state => Shuffle.all.foldl (PlanRound.attempt goal state) round)
    ⟨none, [], seen⟩

/-- Searches sequences that are at most `bound` longer than those of the given states. -/
def searchPlan (goal : List Word) : Nat → List PlanState → List (List Word) → Option (List Shuffle)
  | 0, _, _ => none
  | bound + 1, states, seen =>
    let round := planRound goal states seen
    match round.found with
    | some sequence => some sequence
    | none => searchPlan goal bound round.reached.reverse round.seen

/-- The longest sequence that is tried. -/
def longestPlan : Nat := 3

/-- The shortest sequence of stack manipulations that turns `inputs` into `outputs`, both listed
bottom to top. -/
def planShuffles? (inputs outputs : List Word) : Option (List Shuffle) :=
  if inputs = outputs then some []
  else searchPlan outputs longestPlan [(inputs, [])] [inputs]

end JvmTrim
