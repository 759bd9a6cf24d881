import Mathlib.Order.Bounds.Basic
import JvmTrim.Proofs.Editing
import JvmTrim.Proofs.Heights

/-!
# Flow paths and the heights along them

The search for stack heights visits every offset once. What it finds is compared here with all the
paths that control can take through a body, cycles included. A path starts at the entry with an
empty stack or at a handler with the exception on the stack, and every step of it moves the height
by the effect of the instruction. Offsets and heights are integers along a path, so that a path may
leave the body or pop more than there is; the flow is sound if no path does and all paths to an
offset agree on the height.

The search succeeds if and only if the flow is sound, and then it knows exactly the offsets and
heights of the paths. One direction follows from the result being closed under the flow. For the
other, every step of the search stays on paths and fails only where they are not sound, or with a
fault, and faults are excluded.

## Main definitions

* `Listing.FlowsTo`: a path leads to an offset with a height of the stack
* `Listing.FlowSound`: paths stay on instructions, never pop too much and agree where they meet
* `Listing.PathHeights`: the heights in front of and behind the instructions on paths

## Main results

* `stackHeights_and_maxStackHeight_eq_ok_iff`: the search finds the heights along all paths, and the
  largest of them
-/

namespace JvmTrim

namespace Listing

/-- Whether a path of control leads to an offset with a height of the stack. A subroutine is left to
its target, and to the next instruction with the height that its caller had. -/
inductive FlowsTo (listing : Listing) (pool : ConstantPool) (handlers : List Handler) :
    Int → Int → Prop where
  | entry (hsize : 0 < listing.size) : FlowsTo listing pool handlers 0 0
  | handler {handler : Handler} (hmem : handler ∈ handlers) :
    FlowsTo listing pool handlers handler.target 1
  | branch {offset : Nat} {height : Int} {instruction : Instruction} {effect : StackEffect}
    {displacement : Int32} (hpath : FlowsTo listing pool handlers offset height)
    (hlisted : listing.get? offset = some instruction)
    (haffects : instruction.stackEffect pool = .ok effect)
    (hleads : displacement ∈ instruction.displacements) :
    FlowsTo listing pool handlers (offset + displacement.toInt)
      (height - effect.pops + effect.pushes)
  | next {offset : Nat} {height : Int} {instruction : Instruction} {effect : StackEffect}
    (hpath : FlowsTo listing pool handlers offset height)
    (hlisted : listing.get? offset = some instruction)
    (haffects : instruction.stackEffect pool = .ok effect)
    (hfalls : instruction.fallsThrough = true) :
    FlowsTo listing pool handlers ((offset + instruction.length offset : Nat) : Int)
      (height - effect.pops + effect.pushes)
  | resume {offset : Nat} {height : Int} {instruction : Instruction}
    (hpath : FlowsTo listing pool handlers offset height)
    (hlisted : listing.get? offset = some instruction) (hflow : instruction.flow = .subroutine)
    (hinside : offset + instruction.length offset < listing.size) :
    FlowsTo listing pool handlers ((offset + instruction.length offset : Nat) : Int) height

/-- Whether all paths stay on instructions, find the words that these pop, and agree on the height
wherever they meet. -/
structure FlowSound (listing : Listing) (pool : ConstantPool) (handlers : List Handler) :
    Prop where
  boundary : ∀ {offset height : Int}, FlowsTo listing pool handlers offset height →
    ∃ place : Nat, offset = place ∧ listing.isBoundary place = true
  pops : ∀ {offset : Nat} {height : Int} {instruction : Instruction},
    FlowsTo listing pool handlers offset height → listing.get? offset = some instruction →
    ∃ effect, instruction.stackEffect pool = .ok effect ∧ (effect.pops : Int) ≤ height
  agree : ∀ {offset a b : Int}, FlowsTo listing pool handlers offset a →
    FlowsTo listing pool handlers offset b → a = b

/-- The heights in front of and behind the instructions on paths. -/
def PathHeights (listing : Listing) (pool : ConstantPool) (handlers : List Handler) : Set Int :=
  { height | ∃ (offset : Nat) (before : Int), FlowsTo listing pool handlers offset before ∧
    (height = before ∨ ∃ instruction effect, listing.get? offset = some instruction ∧
      instruction.stackEffect pool = .ok effect ∧
      height = before - effect.pops + effect.pushes) }

end Listing

open Listing

variable {listing : Listing} {pool : ConstantPool} {handlers : List Handler}
  {heights : Array (Option Nat)}

/-! ## Nothing is missed -/

/-- An instruction at an offset with a height was followed with this height. -/
theorem HeightsClosed.followed_of_get? (h : HeightsClosed listing pool handlers heights)
    {offset before : Nat} {instruction : Instruction}
    (hknown : heights[offset]?.join = some before)
    (hlisted : listing.get? offset = some instruction) :
    ∃ effect targets, Followed listing pool heights offset before instruction effect targets := by
  obtain ⟨instruction', effect, targets, hfollowed⟩ := h.followed offset before hknown
  obtain rfl := Option.some.inj (hlisted.symm.trans hfollowed.listed)
  exact ⟨effect, targets, hfollowed⟩

/-- Heights that are closed under the flow know every offset that a path leads to, with the height
that the path has there. -/
theorem HeightsClosed.known (h : HeightsClosed listing pool handlers heights) {offset height : Int}
    (hpath : FlowsTo listing pool handlers offset height) :
    ∃ place known : Nat, offset = place ∧ height = known ∧ heights[place]?.join = some known := by
  induction hpath with
  | entry hsize => exact ⟨0, 0, rfl, rfl, h.entry hsize⟩
  | handler hmem => exact ⟨_, 1, rfl, rfl, h.handlers _ hmem⟩
  | @branch offset height instruction effect displacement hpath hlisted haffects hleads ih =>
    obtain ⟨place, before, hplace, rfl, hknown⟩ := ih
    obtain rfl := Int.ofNat_inj.1 hplace
    obtain ⟨effect', targets, hfollowed⟩ := h.followed_of_get? hknown hlisted
    obtain rfl := Except.ok.inj (haffects.symm.trans hfollowed.affects)
    obtain ⟨target, htarget, hfound⟩ := (mem_of_mapM hfollowed.leads).1 displacement hleads
    have hpops := hfollowed.pops
    exact ⟨target, _, Edit.target_eq_ok hfound, by omega, hfollowed.branches target htarget⟩
  | @next offset height instruction effect hpath hlisted haffects hfalls ih =>
    obtain ⟨place, before, hplace, rfl, hknown⟩ := ih
    obtain rfl := Int.ofNat_inj.1 hplace
    obtain ⟨effect', targets, hfollowed⟩ := h.followed_of_get? hknown hlisted
    obtain rfl := Except.ok.inj (haffects.symm.trans hfollowed.affects)
    have hpops := hfollowed.pops
    exact ⟨_, _, rfl, by omega, hfollowed.next hfalls⟩
  | @resume offset height instruction hpath hlisted hflow hinside ih =>
    obtain ⟨place, before, hplace, rfl, hknown⟩ := ih
    obtain rfl := Int.ofNat_inj.1 hplace
    obtain ⟨effect', targets, hfollowed⟩ := h.followed_of_get? hknown hlisted
    exact ⟨_, _, rfl, rfl, hfollowed.returns hflow hinside⟩

theorem HeightsClosed.known_at (h : HeightsClosed listing pool handlers heights) {offset : Nat}
    {height : Int} (hpath : FlowsTo listing pool handlers offset height) :
    ∃ known : Nat, height = known ∧ heights[offset]?.join = some known := by
  obtain ⟨place, known, hplace, hheight, hknown⟩ := h.known hpath
  obtain rfl := Int.ofNat_inj.1 hplace
  exact ⟨known, hheight, hknown⟩

/-- Where heights are closed under the flow, the flow is sound. -/
theorem HeightsClosed.flowSound (h : HeightsClosed listing pool handlers heights) :
    FlowSound listing pool handlers where
  boundary hpath := by
    obtain ⟨place, known, rfl, -, hknown⟩ := h.known hpath
    obtain ⟨instruction, effect, targets, hfollowed⟩ := h.followed _ _ hknown
    exact ⟨place, rfl, Option.isSome_of_eq_some hfollowed.listed⟩
  pops {offset height instruction} hpath hlisted := by
    obtain ⟨known, rfl, hknown⟩ := h.known_at hpath
    obtain ⟨effect, targets, hfollowed⟩ := h.followed_of_get? hknown hlisted
    exact ⟨effect, hfollowed.affects, Int.ofNat_le.2 hfollowed.pops⟩
  agree ha hb := by
    obtain ⟨place, known, rfl, rfl, hknown⟩ := h.known ha
    obtain ⟨known', rfl, hknown'⟩ := h.known_at hb
    rw [Option.some.inj (hknown.symm.trans hknown')]

/-! ## Nothing is invented -/

theorem orFail_eq_error {α : Type} {failure failure' : Failure} {value : Option α}
    (h : orFail failure value = .error failure') : failure' = failure := by
  cases value with
  | none =>
    cases h
    rfl
  | some a => cases h

/-- Whether a computation fails only where some property does not hold, or with a fault, and gives
only results with another property. -/
def FailsUnless {α : Type} (sound : Prop) (x : Except Failure α) (Q : α → Prop) : Prop :=
  (∀ failure, x = .error failure → sound → failure.isFault = true) ∧ ∀ a, x = .ok a → Q a

namespace FailsUnless

variable {α β σ : Type} {sound : Prop} {Q : α → Prop} {R : β → Prop}

theorem ok {a : α} (h : Q a) : FailsUnless sound (.ok a) Q := by
  refine ⟨fun failure hfailure => ?_, fun b hb => ?_⟩
  · cases hfailure
  · cases hb
    exact h

theorem error {failure : Failure} (h : sound → failure.isFault = true) :
    FailsUnless sound (.error failure : Except Failure α) Q := by
  refine ⟨fun failure' hfailure => ?_, fun b hb => ?_⟩
  · cases hfailure
    exact h
  · cases hb

theorem bind {x : Except Failure α} {f : α → Except Failure β} (hx : FailsUnless sound x Q)
    (hf : ∀ a, x = .ok a → Q a → FailsUnless sound (f a) R) : FailsUnless sound (x >>= f) R := by
  cases x with
  | error cause => exact error (hx.1 cause rfl)
  | ok a => exact hf a rfl (hx.2 a rfl)

theorem mapM {f : α → Except Failure β} {list : List α}
    (h : ∀ a ∈ list, FailsUnless sound (f a) fun _ => True) :
    FailsUnless sound (list.mapM f) fun _ => True := by
  induction list with
  | nil => exact ok trivial
  | cons head tail ih =>
    rw [List.mapM_cons]
    exact (h head List.mem_cons_self).bind fun _ _ _ =>
      (ih fun a ha => h a (List.mem_cons_of_mem _ ha)).bind fun _ _ _ => ok trivial

/-- A fold keeps an invariant that its steps keep. -/
theorem foldlM {step : σ → α → Except Failure σ} {list : List α} {motive : σ → Prop}
    (hstep : ∀ s a, a ∈ list → motive s → FailsUnless sound (step s a) motive) {s : σ}
    (hs : motive s) : FailsUnless sound (list.foldlM step s) motive := by
  induction list generalizing s with
  | nil => exact ok hs
  | cons head tail ih =>
    rw [List.foldlM_cons]
    exact (hstep s head List.mem_cons_self hs).bind fun s' _ hs' =>
      ih (fun s a ha => hstep s a (List.mem_cons_of_mem _ ha)) hs'

/-- A computation that does not fault succeeds where the property holds. -/
theorem exists_ok {x : Except Failure α} (hx : FailsUnless sound x Q) (hfaultless : Faultless x)
    (h : sound) : ∃ a, x = .ok a ∧ Q a := by
  cases x with
  | error failure => cases (hx.1 failure rfl h).symm.trans (hfaultless failure rfl)
  | ok a => exact ⟨a, rfl, hx.2 a rfl⟩

end FailsUnless

namespace HeightSearch

variable {search : HeightSearch}

/-- Whether the known heights of a search are heights of paths, and it knows those of all pending
offsets. -/
structure OnPaths (listing : Listing) (pool : ConstantPool) (handlers : List Handler)
    (search : HeightSearch) : Prop where
  size : search.heights.size = listing.size
  heights : ∀ offset height : Nat, search.heights[offset]?.join = some height →
    FlowsTo listing pool handlers offset height
  pending : ∀ offset ∈ search.pending, ∃ height, search.heights[offset]?.join = some height

/-- Reaching an offset on a path fails only if paths do not agree there. -/
theorem failsUnless_reach (hread : listing.Read) (h : search.OnPaths listing pool handlers)
    {offset height : Nat} (hpath : FlowsTo listing pool handlers offset height) :
    FailsUnless (FlowSound listing pool handlers) (search.reach listing offset height)
      (OnPaths listing pool handlers) := by
  unfold reach
  split
  · rename_i hboundary
    split
    · -- known already
      rename_i existing hexisting
      split
      · exact .ok h
      · rename_i hdiffer
        refine .error fun hsound => absurd ?_ hdiffer
        exact Int.ofNat_inj.1 (hsound.agree (h.heights offset existing hexisting) hpath)
    · rename_i hunknown
      have hnew : (search.heights.setIfInBounds offset (some height))[offset]?.join =
          some height := by
        have hlt : offset < search.heights.size := h.size ▸ hread.lt_size offset hboundary
        simp [Array.getElem?_setIfInBounds_self_of_lt hlt]
      refine .ok ⟨by simpa using h.size, fun o known ho => ?_, fun o ho => ?_⟩
      · by_cases heq : offset = o
        · subst heq
          obtain rfl := Option.some.inj (hnew.symm.trans ho)
          exact hpath
        · exact h.heights o known (by simpa [Array.getElem?_setIfInBounds_ne heq] using ho)
      · by_cases heq : offset = o
        · exact ⟨height, heq ▸ hnew⟩
        · have hold := (List.mem_cons.1 ho).resolve_left fun he => heq he.symm
          simpa [Array.getElem?_setIfInBounds_ne heq] using h.pending o hold
  · rename_i houtside
    refine .error fun hsound => absurd ?_ houtside
    obtain ⟨place, hplace, hboundary⟩ := hsound.boundary hpath
    rwa [Int.ofNat_inj.1 hplace]

theorem failsUnless_reachAll (hread : listing.Read) (h : search.OnPaths listing pool handlers)
    {offsets : List Nat} {height : Nat}
    (hpaths : ∀ offset ∈ offsets, FlowsTo listing pool handlers offset height) :
    FailsUnless (FlowSound listing pool handlers) (search.reachAll listing offsets height)
      (OnPaths listing pool handlers) :=
  .foldlM (fun _ offset hmem hs => failsUnless_reach hread hs (hpaths offset hmem)) h

end HeightSearch

/-- The displacements of an instruction on a path lead to offsets on paths. -/
theorem failsUnless_branchTargets {offset : Nat} {height : Int} {instruction : Instruction}
    {effect : StackEffect} (hpath : FlowsTo listing pool handlers offset height)
    (hlisted : listing.get? offset = some instruction)
    (haffects : instruction.stackEffect pool = .ok effect) :
    FailsUnless (FlowSound listing pool handlers) (instruction.branchTargets offset)
      fun _ => True := by
  refine .mapM fun displacement hleads => ?_
  unfold Instruction.target
  simp only
  split
  · rename_i hnegative
    refine .error fun hsound => ?_
    obtain ⟨place, hplace, -⟩ := hsound.boundary (.branch hpath hlisted haffects hleads)
    omega
  · exact .ok trivial

namespace HeightSearch

variable {search : HeightSearch}

/-- Following a pending offset on a path fails only if the paths through it are not sound. -/
theorem failsUnless_follow (hread : listing.Read) (h : search.OnPaths listing pool handlers)
    {offset before : Nat} (hbefore : search.heights[offset]?.join = some before) :
    FailsUnless (FlowSound listing pool handlers) (follow listing pool offset search)
      (OnPaths listing pool handlers) := by
  have hpath := h.heights offset before hbefore
  refine FailsUnless.bind (Q := fun instruction => listing.get? offset = some instruction) ?_
    fun instruction _ hlisted => ?_
  · refine ⟨fun failure hfailure _ => ?_, fun instruction hfound => orFail_eq_ok.1 hfound⟩
    obtain rfl := orFail_eq_error hfailure
    rfl
  simp only [hbefore, Option.getD_some]
  refine FailsUnless.bind (Q := fun _ => True) ?_ fun effect haffects _ => ?_
  · refine ⟨fun failure hfailure hsound => ?_, fun _ _ => trivial⟩
    obtain ⟨effect, haffects, -⟩ := hsound.pops hpath hlisted
    cases haffects.symm.trans hfailure
  by_cases hpops : effect.pops > before
  · rw [if_pos hpops]
    refine FailsUnless.bind (Q := fun _ => False) (.error fun hsound => ?_)
      fun _ _ hfalse => hfalse.elim
    obtain ⟨effect', haffects', hpops'⟩ := hsound.pops hpath hlisted
    obtain rfl := Except.ok.inj (haffects.symm.trans haffects')
    omega
  rw [if_neg hpops]
  have hafter : (before : Int) - effect.pops + effect.pushes =
      ((before - effect.pops + effect.pushes : Nat) : Int) := by omega
  refine (failsUnless_branchTargets hpath hlisted haffects).bind fun targets htargets _ => ?_
  refine (failsUnless_reachAll hread h fun target htarget => ?_).bind fun reached _ hreached => ?_
  · obtain ⟨displacement, hleads, hfound⟩ := (mem_of_mapM htargets).2 target htarget
    rw [← hafter, ← Edit.target_eq_ok hfound]
    exact .branch hpath hlisted haffects hleads
  split
  · rename_i hflow
    split
    · rename_i hinside
      exact failsUnless_reach hread hreached (.resume hpath hlisted hflow hinside)
    · exact .ok hreached
  · split
    · rename_i hfalls
      exact failsUnless_reach hread hreached (hafter ▸ .next hpath hlisted haffects hfalls)
    · exact .ok hreached

/-- A search on paths fails only if they are not sound or its bound is used up, and all heights that
it finds are heights of paths. -/
theorem failsUnless_run (hread : listing.Read) {bound : Nat}
    (h : search.OnPaths listing pool handlers) :
    FailsUnless (FlowSound listing pool handlers) (search.run listing pool bound)
      fun heights => heights.size = listing.size ∧ ∀ offset height : Nat,
        heights[offset]?.join = some height → FlowsTo listing pool handlers offset height := by
  induction bound generalizing search with
  | zero =>
    unfold run
    split
    · exact .ok ⟨h.size, h.heights⟩
    · exact .error fun _ => rfl
  | succ bound ih =>
    unfold run
    split
    · exact .ok ⟨h.size, h.heights⟩
    · rename_i offset rest hpending
      obtain ⟨before, hbefore⟩ := h.pending offset (hpending ▸ List.mem_cons_self)
      have hrest : OnPaths listing pool handlers { search with pending := rest } :=
        ⟨h.size, h.heights, fun o ho => h.pending o (hpending ▸ List.mem_cons_of_mem _ ho)⟩
      exact (failsUnless_follow hread hrest hbefore).bind fun next _ hnext => ih hnext

end HeightSearch

/-- The heights of a body are heights of paths, and they are missing only where paths are not
sound. -/
theorem failsUnless_stackHeights {code : Code} (hlisting : ofCode code.bytes = .ok listing) :
    FailsUnless (FlowSound listing pool code.handlers) (stackHeights code pool)
      fun heights => heights.size = listing.size ∧ ∀ offset height : Nat,
        heights[offset]?.join = some height →
          FlowsTo listing pool code.handlers offset height := by
  have hread := read_of_ofCode hlisting
  have hblank : HeightSearch.OnPaths listing pool code.handlers
      ⟨Array.replicate listing.size none, []⟩ := by
    refine ⟨by simp, fun offset height hknown => ?_, by simp⟩
    rw [Array.getElem?_replicate] at hknown
    split at hknown <;> cases hknown
  have hrest {entered : HeightSearch} (hentered : entered.OnPaths listing pool code.handlers) :
      FailsUnless (FlowSound listing pool code.handlers) (do
          let search ← entered.reachAll listing (code.handlers.map (·.target)) 1
          search.run listing pool listing.size) fun heights =>
        heights.size = listing.size ∧ ∀ offset height : Nat,
          heights[offset]?.join = some height →
            FlowsTo listing pool code.handlers offset height := by
    refine (HeightSearch.failsUnless_reachAll hread hentered fun target htarget => ?_).bind
      fun started _ hstarted => HeightSearch.failsUnless_run hread hstarted
    obtain ⟨handler, hmem, rfl⟩ := List.mem_map.1 htarget
    exact .handler hmem
  simp only [stackHeights, hlisting]
  refine FailsUnless.bind (Q := fun found => found = listing) (.ok rfl) fun found _ hfound => ?_
  subst hfound
  split
  · rename_i hsize
    exact (HeightSearch.failsUnless_reach hread hblank (.entry hsize)).bind
      fun entered _ hentered => hrest hentered
  · exact hrest hblank

/-! ## The largest height -/

/-- The largest height so far, raised to the heights in front of and behind an instruction. -/
def raisedHeight (heights : Array (Option Nat)) (pool : ConstantPool) (highest : Nat)
    (entry : Nat × Instruction) : Except Failure Nat :=
  match heights[entry.1]?.join with
  | none => .ok highest
  | some before => do
    let effect ← entry.2.stackEffect pool
    return max (max highest before) (before - effect.pops + effect.pushes)

theorem maxStackHeight_eq (code : Code) (pool : ConstantPool) :
    maxStackHeight code pool = (do
      let instructions ← decodeAll code.bytes
      let heights ← stackHeights code pool
      let highest ← instructions.foldlM (raisedHeight heights pool) 0
      if highest < 65536 then return highest.toUInt16 else defect (.stackTooHigh highest)) := rfl

/-- Whether a number is a height in front of an instruction or behind it. -/
def IsHeightAt (heights : Array (Option Nat)) (pool : ConstantPool) (entry : Nat × Instruction)
    (height : Nat) : Prop :=
  ∃ before, heights[entry.1]?.join = some before ∧ (height = before ∨
    ∃ effect, entry.2.stackEffect pool = .ok effect ∧
      height = before - effect.pops + effect.pushes)

theorem raisedHeight_eq_ok {highest raised : Nat} {entry : Nat × Instruction}
    (h : raisedHeight heights pool highest entry = .ok raised) :
    highest ≤ raised ∧ (∀ height, IsHeightAt heights pool entry height → height ≤ raised) ∧
      (raised = highest ∨ IsHeightAt heights pool entry raised) := by
  unfold raisedHeight at h
  cases hknown : heights[entry.1]?.join with
  | none =>
    simp only [hknown] at h
    cases h
    refine ⟨Nat.le_refl _, fun height hheight => ?_, .inl rfl⟩
    obtain ⟨before, hbefore, -⟩ := hheight
    cases hknown.symm.trans hbefore
  | some before =>
    simp only [hknown] at h
    obtain ⟨effect, haffects, h⟩ := Except.bind_eq_ok.mp h
    cases h
    refine ⟨by omega, fun height hheight => ?_, ?_⟩
    · obtain ⟨before', hbefore, hheight⟩ := hheight
      obtain rfl := Option.some.inj (hknown.symm.trans hbefore)
      obtain rfl | ⟨effect', haffects', rfl⟩ := hheight
      · omega
      · obtain rfl := Except.ok.inj (haffects.symm.trans haffects')
        omega
    · rcases Nat.le_total (before - effect.pops + effect.pushes) (max highest before) with hle | hle
      · rw [Nat.max_eq_left hle]
        rcases Nat.le_total before highest with hle | hle
        · exact .inl (Nat.max_eq_left hle)
        · exact .inr ⟨before, hknown, .inl (Nat.max_eq_right hle)⟩
      · rw [Nat.max_eq_right hle]
        exact .inr ⟨before, hknown, .inr ⟨effect, haffects, rfl⟩⟩

/-- The largest of the heights at some instructions, if they have any. -/
theorem foldlM_raisedHeight {entries : List (Nat × Instruction)} {highest : Nat}
    (h : entries.foldlM (raisedHeight heights pool) 0 = .ok highest) :
    (∀ entry ∈ entries, ∀ height, IsHeightAt heights pool entry height → height ≤ highest) ∧
      (highest = 0 ∨ ∃ entry ∈ entries, IsHeightAt heights pool entry highest) := by
  constructor
  · refine (foldlM_along (· ≤ ·)
      (fun entry highest => ∀ height, IsHeightAt heights pool entry height → height ≤ highest)
      Nat.le_refl Nat.le_trans (fun hbound hle height hheight => ?_)
      (fun _ _ _ _ hstep => ?_) h).2
    · exact (hbound height hheight).trans hle
    · exact ⟨(raisedHeight_eq_ok hstep).1, (raisedHeight_eq_ok hstep).2.1⟩
  · refine foldlM_invariant
      (fun highest => highest = 0 ∨ ∃ entry ∈ entries, IsHeightAt heights pool entry highest)
      (fun highest entry raised hmem hhighest hstep => ?_) (.inl rfl) h
    obtain rfl | hraised := (raisedHeight_eq_ok hstep).2.2
    · exact hhighest
    · exact .inr ⟨entry, hmem, hraised⟩

/-- Where heights are closed under the flow and are heights of paths, the heights at the
instructions are the heights along paths. -/
theorem mem_pathHeights_iff {code : List UInt8} (hlisting : ofCode code = .ok listing)
    (hclosed : HeightsClosed listing pool handlers heights)
    (hpaths : ∀ offset height : Nat, heights[offset]?.join = some height →
      FlowsTo listing pool handlers offset height) {height : Int} :
    height ∈ PathHeights listing pool handlers ↔
      ∃ entry ∈ listing.instructions, ∃ known : Nat, height = known ∧
        IsHeightAt heights pool entry known := by
  constructor
  · rintro ⟨offset, before, hpath, hheight⟩
    obtain ⟨known, rfl, hknown⟩ := hclosed.known_at hpath
    obtain ⟨instruction, effect, targets, hfollowed⟩ := hclosed.followed _ _ hknown
    refine ⟨(offset, instruction), (get?_eq_some_iff hlisting).1 hfollowed.listed, ?_⟩
    obtain rfl | ⟨instruction', effect', hlisted, haffects, rfl⟩ := hheight
    · exact ⟨known, rfl, known, hknown, .inl rfl⟩
    · obtain rfl := Option.some.inj (hfollowed.listed.symm.trans hlisted)
      obtain rfl := Except.ok.inj (hfollowed.affects.symm.trans haffects)
      have hpops := hfollowed.pops
      exact ⟨_, by omega, known, hknown, .inr ⟨effect, haffects, rfl⟩⟩
  · rintro ⟨⟨offset, instruction⟩, hmem, known, rfl, before, hknown, hheight⟩
    refine ⟨offset, before, hpaths offset before hknown, ?_⟩
    have hlisted := (get?_eq_some_iff hlisting).2 hmem
    obtain rfl | ⟨effect, haffects, rfl⟩ := hheight
    · exact .inl rfl
    · obtain ⟨effect', targets, hfollowed⟩ := hclosed.followed_of_get? hknown hlisted
      obtain rfl := Except.ok.inj (haffects.symm.trans hfollowed.affects)
      have hpops := hfollowed.pops
      exact .inr ⟨instruction, effect, hlisted, haffects, by omega⟩

/-- The largest of the heights that are known is the largest height along paths. -/
theorem isGreatest_of_foldlM {code : List UInt8} {highest : Nat}
    (hlisting : ofCode code = .ok listing)
    (hclosed : HeightsClosed listing pool handlers heights)
    (hpaths : ∀ offset height : Nat, heights[offset]?.join = some height →
      FlowsTo listing pool handlers offset height)
    (h : listing.instructions.foldlM (raisedHeight heights pool) 0 = .ok highest) :
    IsGreatest (PathHeights listing pool handlers) highest ∨
      PathHeights listing pool handlers = ∅ ∧ highest = 0 := by
  obtain ⟨hbound, hreal⟩ := foldlM_raisedHeight h
  have hupper : ∀ height ∈ PathHeights listing pool handlers, height ≤ highest := by
    intro height hheight
    obtain ⟨entry, hmem, known, rfl, hat⟩ :=
      (mem_pathHeights_iff hlisting hclosed hpaths).1 hheight
    exact Int.ofNat_le.2 (hbound entry hmem known hat)
  obtain rfl | ⟨entry, hmem, hat⟩ := hreal
  · obtain hempty | ⟨height, hheight⟩ := (PathHeights listing pool handlers).eq_empty_or_nonempty
    · exact .inr ⟨hempty, rfl⟩
    · have hle := hupper height hheight
      obtain ⟨entry, hmem, known, rfl, hat⟩ :=
        (mem_pathHeights_iff hlisting hclosed hpaths).1 hheight
      obtain rfl : known = 0 := by omega
      exact .inl ⟨hheight, hupper⟩
  · refine .inl ⟨?_, hupper⟩
    exact (mem_pathHeights_iff hlisting hclosed hpaths).2 ⟨entry, hmem, highest, rfl, hat⟩

/-- The heights at all instructions with a height are found if the heights are closed. -/
theorem exists_foldlM_raisedHeight {code : List UInt8} (hlisting : ofCode code = .ok listing)
    (hclosed : HeightsClosed listing pool handlers heights) :
    ∃ highest, listing.instructions.foldlM (raisedHeight heights pool) 0 = .ok highest := by
  have hfold : FailsUnless True (listing.instructions.foldlM (raisedHeight heights pool) 0)
      fun _ => True := by
    refine .foldlM (fun highest entry hmem _ => ?_) trivial
    unfold raisedHeight
    split
    · exact .ok trivial
    · rename_i before hknown
      obtain ⟨effect, targets, hfollowed⟩ :=
        hclosed.followed_of_get? hknown ((get?_eq_some_iff hlisting).2 hmem)
      rw [hfollowed.affects]
      exact .ok trivial
  have hfaultless : Faultless (listing.instructions.foldlM (raisedHeight heights pool) 0) := by
    refine .foldlM fun highest entry _ => ?_
    unfold raisedHeight
    split
    · exact .ok _
    · exact (entry.2.ordinary_stackEffect pool).faultless.bind fun _ _ => .ok _
  obtain ⟨highest, hhighest, -⟩ := hfold.exists_ok hfaultless trivial
  exact ⟨highest, hhighest⟩

/-! ## Heights are found if and only if the flow is sound -/

theorem flowsTo_iff_of_stackHeights {code : Code} (h : stackHeights code pool = .ok heights)
    (hlisting : ofCode code.bytes = .ok listing) :
    HeightsClosed listing pool code.handlers heights ∧ heights.size = listing.size ∧
      ∀ (offset : Nat) (height : Int), FlowsTo listing pool code.handlers offset height ↔
        ∃ known : Nat, height = known ∧ heights[offset]? = some (some known) := by
  obtain ⟨listing', hlisting', hclosed⟩ := heightsClosed_of_stackHeights h
  obtain rfl := Except.ok.inj (hlisting.symm.trans hlisting')
  obtain ⟨hsize, hpaths⟩ := (failsUnless_stackHeights hlisting).2 heights h
  refine ⟨hclosed, hsize, fun offset height => ⟨fun hpath => ?_, fun hknown => ?_⟩⟩
  · obtain ⟨known, hheight, hknown⟩ := hclosed.known_at hpath
    exact ⟨known, hheight, Option.join_eq_some_iff.1 hknown⟩
  · obtain ⟨known, rfl, hknown⟩ := hknown
    exact hpaths offset known (Option.join_eq_some_iff.2 hknown)

/-- Tables of the same heights are the same. -/
theorem heights_ext {heights' : Array (Option Nat)} (hsize : heights.size = heights'.size)
    (h : ∀ offset height : Nat,
      heights[offset]? = some (some height) ↔ heights'[offset]? = some (some height)) :
    heights = heights' := by
  refine Array.ext hsize fun offset hlt hlt' => Option.ext fun height => ?_
  have hsame := h offset height
  rwa [Array.getElem?_eq_getElem hlt, Array.getElem?_eq_getElem hlt', Option.some_inj,
    Option.some_inj] at hsame

/-- Where the flow is sound, heights are found. -/
theorem exists_stackHeights {code : Code} (hlisting : ofCode code.bytes = .ok listing)
    (hsound : FlowSound listing pool code.handlers) :
    ∃ heights, stackHeights code pool = .ok heights := by
  obtain ⟨heights, hheights, -⟩ := (failsUnless_stackHeights hlisting).exists_ok
    (faultless_stackHeights code pool) hsound
  exact ⟨heights, hheights⟩

/-- The search succeeds if and only if the flow is sound, and then it knows the heights of the
paths. -/
theorem stackHeights_eq_ok_iff {code : Code} :
    stackHeights code pool = .ok heights ↔
      ∃ listing, ofCode code.bytes = .ok listing ∧ FlowSound listing pool code.handlers ∧
        heights.size = listing.size ∧
        ∀ (offset : Nat) (height : Int), FlowsTo listing pool code.handlers offset height ↔
          ∃ known : Nat, height = known ∧ heights[offset]? = some (some known) := by
  constructor
  · intro h
    obtain ⟨listing, hlisting, -⟩ := heightsClosed_of_stackHeights h
    obtain ⟨hclosed, hsize, hiff⟩ := flowsTo_iff_of_stackHeights h hlisting
    exact ⟨listing, hlisting, hclosed.flowSound, hsize, hiff⟩
  · rintro ⟨listing, hlisting, hsound, hsize, hiff⟩
    obtain ⟨heights', hheights⟩ := exists_stackHeights hlisting hsound
    obtain ⟨-, hsize', hiff'⟩ := flowsTo_iff_of_stackHeights hheights hlisting
    rw [hheights, heights_ext (hsize'.trans hsize.symm) fun offset height => ?_]
    simpa using (hiff' offset height).symm.trans (hiff offset height)

/-- A height that is found is the largest height along paths. -/
theorem isGreatest_of_maxStackHeight {code : Code} {highest : UInt16}
    (h : maxStackHeight code pool = .ok highest) :
    ∃ listing, ofCode code.bytes = .ok listing ∧ FlowSound listing pool code.handlers ∧
      (IsGreatest (PathHeights listing pool code.handlers) highest.toNat ∨
        PathHeights listing pool code.handlers = ∅ ∧ highest = 0) := by
  rw [maxStackHeight_eq] at h
  obtain ⟨instructions, hdecode, h⟩ := Except.bind_eq_ok.1 h
  obtain ⟨heights, hheights, h⟩ := Except.bind_eq_ok.1 h
  obtain ⟨largest, hlargest, h⟩ := Except.bind_eq_ok.1 h
  obtain ⟨listing, hlisting, -⟩ := heightsClosed_of_stackHeights hheights
  rw [Except.ok.inj (hdecode.symm.trans (ofCode_eq_ok hlisting).1)] at hlargest
  obtain ⟨hclosed, -, hiff⟩ := flowsTo_iff_of_stackHeights hheights hlisting
  split at h
  · rename_i hsmall
    cases h
    refine ⟨listing, hlisting, hclosed.flowSound, ?_⟩
    have hgreatest := isGreatest_of_foldlM hlisting hclosed (fun offset height hknown =>
      (hiff offset height).2 ⟨height, rfl, Option.join_eq_some_iff.1 hknown⟩) hlargest
    rw [show largest.toUInt16.toNat = largest from UInt16.toNat_ofNat_of_lt hsmall]
    refine hgreatest.imp_right fun hnone => ⟨hnone.1, ?_⟩
    rw [hnone.2]
    rfl
  · cases h

/-- The largest height along sound paths is found if it fits into a word. -/
theorem maxStackHeight_of_isGreatest {code : Code} {highest : UInt16}
    (hlisting : ofCode code.bytes = .ok listing) (hsound : FlowSound listing pool code.handlers)
    (hlargest : IsGreatest (PathHeights listing pool code.handlers) highest.toNat ∨
      PathHeights listing pool code.handlers = ∅ ∧ highest = 0) :
    maxStackHeight code pool = .ok highest := by
  obtain ⟨heights, hheights⟩ := exists_stackHeights hlisting hsound
  obtain ⟨hclosed, -, hiff⟩ := flowsTo_iff_of_stackHeights hheights hlisting
  obtain ⟨largest, hfold⟩ := exists_foldlM_raisedHeight hlisting hclosed
  have hgreatest := isGreatest_of_foldlM hlisting hclosed (fun offset height hknown =>
    (hiff offset height).2 ⟨height, rfl, Option.join_eq_some_iff.1 hknown⟩) hfold
  have hsame : largest = highest.toNat := by
    obtain hone | ⟨hempty, rfl⟩ := hlargest <;> obtain hother | ⟨hempty', rfl⟩ := hgreatest
    · exact Int.ofNat_inj.1 (hother.unique hone)
    · exact absurd hone.1 (hempty' ▸ Set.notMem_empty _)
    · exact absurd hother.1 (hempty ▸ Set.notMem_empty _)
    · rfl
  have hsmall : largest < 65536 := hsame ▸ highest.toNat_lt
  have hword : largest.toUInt16 = highest := by
    rw [hsame]
    exact UInt16.ofNat_toNat
  rw [maxStackHeight_eq, (ofCode_eq_ok hlisting).1]
  simp only [bind, Except.bind, hheights, hfold, if_pos hsmall, pure, Except.pure, hword]

/-- **The search finds the heights along all paths, and the largest of them.** It succeeds if and
only if the code can be read and its flow is sound: no path leaves the instructions, pops more words
than there are or meets another path at a different height. Then it knows exactly the offsets that
paths lead to, each with the one height that all paths have there. The largest height in front of or
behind an instruction on a path is found under the same condition, as long as it fits into a word,
and it is zero if there are no paths. Where the search fails, it does not fail with a fault. -/
theorem stackHeights_and_maxStackHeight_eq_ok_iff (code : Code) (pool : ConstantPool) :
    (∀ heights, stackHeights code pool = .ok heights ↔
      ∃ listing, ofCode code.bytes = .ok listing ∧ FlowSound listing pool code.handlers ∧
        heights.size = listing.size ∧
        ∀ (offset : Nat) (height : Int), FlowsTo listing pool code.handlers offset height ↔
          ∃ known : Nat, height = known ∧ heights[offset]? = some (some known)) ∧
    (∀ highest, maxStackHeight code pool = .ok highest ↔
      ∃ listing, ofCode code.bytes = .ok listing ∧ FlowSound listing pool code.handlers ∧
        (IsGreatest (PathHeights listing pool code.handlers) highest.toNat ∨
          PathHeights listing pool code.handlers = ∅ ∧ highest = 0)) ∧
    Faultless (stackHeights code pool) ∧ Faultless (maxStackHeight code pool) := by
  refine ⟨fun heights => stackHeights_eq_ok_iff, fun highest => ⟨isGreatest_of_maxStackHeight, ?_⟩,
    faultless_stackHeights code pool, faultless_maxStackHeight code pool⟩
  rintro ⟨listing, hlisting, hsound, hlargest⟩
  exact maxStackHeight_of_isGreatest hlisting hsound hlargest

/-- A subroutine that stores its return address, and the return behind its call: the subroutine is
entered with the address on the stack, and its caller goes on without. -/
example : stackHeights ⟨1, 1, [0xA8, 0, 4, 0xB1, 0x4B, 0xA9, 0], [], [], []⟩ ⟨#[]⟩ =
    .ok #[some 0, none, none, some 0, some 1, some 0, none] := by decide +kernel

end JvmTrim
