import JvmTrim.Proofs.FlowPaths
import JvmTrim.Proofs.Tables

/-!
# Where the branches of edited code lead

A branch is emitted only if it leads to an instruction of the body before the edit, and it leads to
the first instruction emitted at or behind its target afterwards. If nothing is emitted there, since
all of the code from the target on was deleted, then the branch leads to the end of the code, where
no instruction is. Such a branch is found only in code that control does not reach: for all other
code the heights of the stack are computed, and that fails at the end of the code. The tables have
no such entries, as a handler without code is dropped.

## Main definitions

* `Edit.BranchesInto`: an instruction that branches to instructions only
* `Edit.Closes`: what the offsets in edited code lead to

## Main results

* `Edit.closes_of_apply`: edited code is closed, apart from branches to the end
* `Edit.apply_leaves_branch`: a branch to the end that is left
-/

namespace JvmTrim

namespace Edit

/-- Whether all branches of an instruction at an offset lead to instructions of a body. -/
def BranchesInto (body : List (Nat × Instruction)) (entry : Nat × Instruction) : Prop :=
  ∀ displacement ∈ entry.2.displacements, ∃ target : Nat,
    (entry.1 : Int) + displacement.toInt = target ∧ target ∈ body.map (·.1)

/-- What the offsets in an edited body lead to. -/
structure Closes (edit : Edit) (pool : ConstantPool) (original body : List (Nat × Instruction))
    (edited : Code) : Prop where
  /-- A branch leads to an instruction or to the end. -/
  branches : ∀ entry ∈ body, ∀ displacement ∈ entry.2.displacements, ∃ target : Nat,
    (entry.1 : Int) + displacement.toInt = target ∧
      (target ∈ body.map (·.1) ∨ target = edited.size)
  /-- All branches lead to instructions if and only if something is emitted at or behind every
  target of what is emitted. -/
  closed_iff : (∀ entry ∈ body, BranchesInto body entry) ↔
    ∀ source ∈ edit.emission original, ∀ displacement ∈ source.2.displacements,
      ∃ other ∈ edit.emission original, (source.1 : Int) + displacement.toInt ≤ other.1
  /-- A branch that control reaches leads to an instruction. -/
  reached : ∀ listing height, Listing.ofCode edited.bytes = .ok listing → ∀ entry ∈ body,
    listing.FlowsTo pool edited.handlers entry.1 height → BranchesInto body entry
  /-- A handler protects whole instructions, of which there are some, and has an instruction as its
  target. -/
  handlers : ∀ handler ∈ edited.handlers,
    handler.start < handler.stop ∧ handler.stop ≤ edited.size ∧
      handler.start ∈ body.map (·.1) ∧ handler.target ∈ body.map (·.1) ∧
      (handler.stop ∈ body.map (·.1) ∨ handler.stop = edited.size)

variable {edit : Edit} {code edited : Code} {pool : ConstantPool}
  {original body : List (Nat × Instruction)}

/-- What is known of the positions of an edited body: they are the offsets of its instructions, and
offsets move to them. -/
structure Positioned (edit : Edit) (original body : List (Nat × Instruction)) (size : Nat)
    (placed : List (Nat × Nat)) : Prop where
  ascends : Ascends placed size
  origins : placed.map (·.1) = (edit.emission original).map (·.1)
  mem_body : ∀ entry ∈ placed, entry.2 ∈ body.map (·.1)
  lt_size : ∀ position ∈ body.map (·.1), position < size
  stands : List.Forall₂ (Stands placed size) (edit.emission original) body

section Positioned

variable {size : Nat} {placed : List (Nat × Nat)} {target : Int}

/-- A moved offset is that of an instruction or the end. -/
theorem Positioned.mem_or_eq (h : edit.Positioned original body size placed) (target : Int) :
    firstAtOrBehind placed size target ∈ body.map (·.1) ∨
      firstAtOrBehind placed size target = size := by
  obtain ⟨entry, hentry, -, hmoved⟩ | ⟨-, hmoved⟩ := firstAtOrBehind_cases placed size target
  · exact .inl (hmoved ▸ h.mem_body entry hentry)
  · exact .inr hmoved

theorem Positioned.mem_iff_lt (h : edit.Positioned original body size placed) :
    firstAtOrBehind placed size target ∈ body.map (·.1) ↔
      firstAtOrBehind placed size target < size :=
  ⟨h.lt_size _, fun hlt => (h.mem_or_eq target).resolve_right (Nat.ne_of_lt hlt)⟩

/-- An offset moves to an instruction if something is emitted at or behind it. -/
theorem Positioned.mem_iff (h : edit.Positioned original body size placed) :
    firstAtOrBehind placed size target ∈ body.map (·.1) ↔
      ∃ other ∈ edit.emission original, target ≤ other.1 := by
  rw [h.mem_iff_lt, h.ascends.firstAtOrBehind_lt_stop_iff]
  exact exists_mem_iff_of_map_fst h.origins fun origin => target ≤ origin

/-- Every branch of the edited body was emitted, and leads to where its old target moves to. -/
theorem Positioned.exists_source (h : edit.Positioned original body size placed)
    {entry : Nat × Instruction} (hentry : entry ∈ body) {displacement : Int32}
    (hmem : displacement ∈ entry.2.displacements) :
    ∃ source ∈ edit.emission original, ∃ old ∈ source.2.displacements,
      (entry.1 : Int) + displacement.toInt =
        firstAtOrBehind placed size (source.1 + old.toInt) := by
  obtain ⟨source, hsource, hstands⟩ := exists_mem_of_forall₂ h.stands.flip hentry
  obtain ⟨old, hold, hleads⟩ := exists_mem_of_forall₂ hstands.targets.flip hmem
  exact ⟨source, hsource, old, hold, hleads⟩

/-- Every branch that is emitted leads to where its target moves to. -/
theorem Positioned.exists_result (h : edit.Positioned original body size placed)
    {source : Nat × Instruction} (hsource : source ∈ edit.emission original)
    {displacement : Int32} (hmem : displacement ∈ source.2.displacements) :
    ∃ entry ∈ body, ∃ new ∈ entry.2.displacements, (entry.1 : Int) + new.toInt =
      firstAtOrBehind placed size (source.1 + displacement.toInt) := by
  obtain ⟨entry, hentry, hstands⟩ := exists_mem_of_forall₂ h.stands hsource
  obtain ⟨new, hnew, hleads⟩ := exists_mem_of_forall₂ hstands.targets hmem
  exact ⟨entry, hentry, new, hnew, hleads⟩

/-- The branches of the edited body lead to instructions if something is emitted at or behind every
target of what is emitted. -/
theorem Positioned.closed_iff (h : edit.Positioned original body size placed) :
    (∀ entry ∈ body, BranchesInto body entry) ↔
    ∀ source ∈ edit.emission original, ∀ displacement ∈ source.2.displacements,
      ∃ other ∈ edit.emission original, (source.1 : Int) + displacement.toInt ≤ other.1 := by
  constructor
  · intro hclosed source hsource displacement hmem
    obtain ⟨entry, hentry, new, hnew, hleads⟩ := h.exists_result hsource hmem
    obtain ⟨target, heq, htarget⟩ := hclosed entry hentry new hnew
    rw [hleads] at heq
    exact h.mem_iff.1 (Int.ofNat_inj.1 heq ▸ htarget)
  · intro hemits entry hentry displacement hmem
    obtain ⟨source, hsource, old, hold, hleads⟩ := h.exists_source hentry hmem
    exact ⟨_, hleads, h.mem_iff.2 (hemits source hsource old hold)⟩

/-- A handler that survives protects whole instructions and has an instruction as its target. -/
theorem Positioned.of_survives (h : edit.Positioned original body size placed) {listing : Listing}
    {handler : Handler} (hsurvives : handler.survives listing (edit.emission original) = true) :
    (handler.moved placed size).start < (handler.moved placed size).stop ∧
      (handler.moved placed size).stop ≤ size ∧
      (handler.moved placed size).start ∈ body.map (·.1) ∧
      (handler.moved placed size).target ∈ body.map (·.1) ∧
      ((handler.moved placed size).stop ∈ body.map (·.1) ∨
        (handler.moved placed size).stop = size) := by
  simp only [Handler.survives, Bool.and_eq_true, List.any_eq_true] at hsurvives
  obtain ⟨⟨-, other, hother, hcovers⟩, behind, hbehind, htarget⟩ := hsurvives
  simp only [Handler.covers, Bool.and_eq_true, decide_eq_true_eq] at hcovers htarget
  have hstart : (handler.start : Int) ≤ other.1 := Int.ofNat_le.2 hcovers.1
  refine ⟨?_, h.ascends.firstAtOrBehind_le_stop, h.mem_iff.2 ⟨other, hother, hstart⟩,
    h.mem_iff.2 ⟨behind, hbehind, Int.ofNat_le.2 htarget⟩, h.mem_or_eq _⟩
  refine h.ascends.firstAtOrBehind_lt_iff.2 ((exists_mem_iff_of_map_fst h.origins
    fun origin => (handler.start : Int) ≤ origin ∧ (origin : Int) < handler.stop).2 ?_)
  exact ⟨other, hother, hstart, Int.ofNat_lt.2 hcovers.2⟩

end Positioned

/-- The positions of an edited body. -/
theorem positioned_of_apply (h : edit.apply code pool = .ok edited) (hw : edit.Writable)
    (hsize : edited.size < 2 ^ 31) :
    ∃ listing body placed, Listing.ofCode code.bytes = .ok listing ∧
      decodeAll edited.bytes = .ok body ∧
      edit.Positioned listing.instructions body edited.size placed ∧
      edited.handlers = ((withoutIndices edit.removedHandlers code.handlers).filter
        (·.survives listing (edit.emission listing.instructions))).map
          (·.moved placed edited.size) := by
  obtain ⟨listing, groups, placement, happlies⟩ := applies_of_apply h
  obtain ⟨settled, relocated, hr⟩ := happlies.relocates
  have hf := hr.follows happlies.reads
  have hbody := decodeAll_encodeFrom
    (hr.wellFormed (wellFormed_of_mem_emission hw (Listing.ofCode_eq_ok happlies.reads).1))
    hr.encodes
  refine ⟨listing, _, _, happlies.reads, hbody,
    ⟨hf.ascends, hf.origins, fun entry hentry => ?_, fun position hposition => ?_,
      happlies.stands hr hsize⟩,
    eq_of_filterMapE happlies.handlers fun _ _ => hf.moveHandler_eq⟩
  · have hlength : ((edit.emission listing.instructions).map (·.1)).length ≤
        (relocated.map Instruction.stored).length := by
      rw [List.length_map, List.length_map, hr.forms.length_eq]
    rw [placed, ← zip_map_fst_zip hlength] at hentry
    exact (List.of_mem_zip hentry).2
  · obtain ⟨entry, hentry, rfl⟩ := List.mem_map.1 hposition
    exact lt_of_decodeAll hbody entry hentry

/-- **Edited code is closed**, apart from branches to its end that control does not reach. -/
theorem closes_of_apply (h : edit.apply code pool = .ok edited) (hw : edit.Writable)
    (hsize : edited.size < 2 ^ 31) :
    ∃ original body, decodeAll code.bytes = .ok original ∧ decodeAll edited.bytes = .ok body ∧
      edit.Closes pool original body edited := by
  obtain ⟨listing, body, placed, hlisting, hbody, hpositions, hhandlers⟩ :=
    positioned_of_apply h hw hsize
  refine ⟨listing.instructions, body, (Listing.ofCode_eq_ok hlisting).1, hbody,
    fun entry hentry displacement hmem => ?_, hpositions.closed_iff,
    fun listing' height hlisting' entry hentry hpath displacement hmem => ?_,
    fun handler hhandler => ?_⟩
  · obtain ⟨source, -, old, -, hleads⟩ := hpositions.exists_source hentry hmem
    exact ⟨_, hleads, hpositions.mem_or_eq _⟩
  · obtain ⟨_, _, _, happlies⟩ := applies_of_apply h
    obtain ⟨heights, hheights⟩ := happlies.heights
    obtain ⟨_, hfound, hclosed⟩ := heightsClosed_of_stackHeights hheights
    obtain rfl := Except.ok.inj (hlisting'.symm.trans hfound)
    obtain rfl := Except.ok.inj (hbody.symm.trans (Listing.ofCode_eq_ok hlisting').1)
    have hlisted := (Listing.get?_eq_some_iff hlisting').2 hentry
    obtain ⟨effect, haffects, -⟩ := hclosed.flowSound.pops hpath hlisted
    obtain ⟨place, hplace, hboundary⟩ :=
      hclosed.flowSound.boundary (.branch hpath hlisted haffects hmem)
    obtain ⟨instruction, hplaced⟩ := (Listing.isBoundary_iff hlisting').1 hboundary
    exact ⟨place, hplace, List.mem_map.2 ⟨_, hplaced, rfl⟩⟩
  · rw [hhandlers] at hhandler
    obtain ⟨before, hbefore, rfl⟩ := List.mem_map.1 hhandler
    exact hpositions.of_survives (List.mem_filter.1 hbefore).2

/-- A jump over a handler to an instruction that does nothing and a return. -/
def jumpToNop : Code where
  maxStack := 1
  maxLocals := 0
  bytes := [0xA7, 0, 4, 0xBF, 0, 0xB1]
  handlers := [⟨4, 6, 3, 0⟩]
  lines := []
  localRanges := []

/-- Deletes the target of the jump and puts two such instructions before the return. -/
def replaceNop : Edit where
  size := 6
  sites := [(4, ⟨[], some [], []⟩), (5, ⟨[.simple 0, .simple 0], none, []⟩)]
  removedHandlers := []

/-- The jump leads to the first of the two. -/
theorem closes_of_apply_replaceNop : ∃ edited, replaceNop.apply jumpToNop ⟨#[none]⟩ = .ok edited ∧
    replaceNop.Writable ∧ edited.size < 2 ^ 31 ∧
    ∃ original body, decodeAll jumpToNop.bytes = .ok original ∧
      decodeAll edited.bytes = .ok body ∧
      replaceNop.Closes ⟨#[none]⟩ original body edited := by
  have happly : replaceNop.apply jumpToNop ⟨#[none]⟩ =
      .ok ⟨1, 0, [0xA7, 0, 4, 0xBF, 0, 0, 0xB1], [⟨4, 7, 3, 0⟩], [], []⟩ := by decide +kernel
  have hnop : (Instruction.simple 0).Decodable := ⟨[0], 0, by decide +kernel⟩
  have hwritable : replaceNop.Writable := by
    intro entry hentry instruction hmem
    simp only [replaceNop, List.mem_cons, List.not_mem_nil, or_false] at hentry
    obtain rfl | rfl := hentry
    · cases hmem
    · simp only [Option.getD_none, List.append_nil, List.mem_cons, List.not_mem_nil, or_false,
        or_self] at hmem
      exact hmem ▸ .inl hnop
  exact ⟨_, happly, hwritable, by decide, closes_of_apply happly hwritable (by decide)⟩

/-- A jump behind a return, to the last instruction. -/
def jumpBehindReturn : Code where
  maxStack := 0
  maxLocals := 0
  bytes := [0xB1, 0xA7, 0, 3, 0xB1]
  handlers := []
  lines := []
  localRanges := []

/-- Deletes the last instruction. -/
def deleteLast : Edit := (ofSize 5).delete 4

/-- **A branch to the end is left** when its target is deleted and nothing is emitted behind it. -/
theorem apply_leaves_branch : ∃ edited body,
    deleteLast.apply jumpBehindReturn ⟨#[none]⟩ = .ok edited ∧ deleteLast.Writable ∧
      jumpBehindReturn.size < 2 ^ 31 ∧ edited.size < 2 ^ 31 ∧
      decodeAll edited.bytes = .ok body ∧ ¬ ∀ entry ∈ body, BranchesInto body entry := by
  have happly : deleteLast.apply jumpBehindReturn ⟨#[none]⟩ =
      .ok ⟨0, 0, [0xB1, 0xA7, 0, 3], [], [], []⟩ := by decide +kernel
  have hbody : decodeAll [0xB1, 0xA7, 0, 3] =
      .ok [(0, .simple 0xB1), (1, .branch Opcode.goto 3)] := by decide +kernel
  have hsites : deleteLast.sites = [(4, ⟨[], some [], []⟩)] := by decide +kernel
  refine ⟨_, _, happly, fun entry hentry instruction hmem => ?_, by decide, by decide, hbody,
    fun hclosed => ?_⟩
  · rw [hsites, List.mem_singleton] at hentry
    subst hentry
    cases hmem
  · obtain ⟨target, heq, htarget⟩ :=
      hclosed (1, .branch Opcode.goto 3) (by simp) 3 List.mem_cons_self
    have hend : target = 4 := by
      have : (3 : Int32).toInt = 3 := by decide
      omega
    subst hend
    exact absurd htarget (by decide)

end Edit

end JvmTrim
