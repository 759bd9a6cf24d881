import JvmTrim.Proofs.Relocation

/-!
# The tables of edited code

The exception table, the line numbers and the live ranges of variables refer into a body by offset.
When the body is edited, an offset moves to the position of the first instruction that is emitted at
or behind it. Whatever lies in a range is then found in the moved range again, since emitted
instructions keep the order of the offsets that they are emitted for: an instruction is placed at or
behind the position that an offset moves to if and only if it was emitted at or behind the offset.

Entries are dropped by this rule as well. A range is left if something is emitted in it, and a
target if something is emitted at or behind it. Nothing is known about offsets inside of an
instruction, and entries with such offsets are dropped.

## Main definitions

* `Edit.placed`: the positions of an edited body, with the offsets that they were emitted for
* `Ascends`: positions ascend, and the offsets that they were emitted for do not descend
* `Handler.survives`, `LineEntry.survives`, `VariableEntry.survives`: the entries that are left
* `Edit.MovesTables`: what becomes of the tables

## Main results

* `Ascends.firstAtOrBehind_le_iff`: what is placed behind a moved offset was emitted behind the
  offset
* `Edit.movesTables_of_apply`: the tables of an edited body
-/

namespace JvmTrim

/-! ## The order of positions -/

/-- Whether the positions of some instructions ascend up to the end of the code, and the offsets
that the instructions were emitted for do not descend. -/
structure Ascends (placed : List (Nat × Nat)) (stop : Nat) : Prop where
  pairwise : placed.Pairwise fun a b => a.1 ≤ b.1 ∧ a.2 < b.2
  lt_stop : ∀ entry ∈ placed, entry.2 < stop

section Order

variable {placed : List (Nat × Nat)} {stop : Nat} {target : Int}

/-- An offset moves to the position of something emitted at or behind it, or to the end. -/
theorem firstAtOrBehind_cases (placed : List (Nat × Nat)) (stop : Nat) (target : Int) :
    (∃ entry ∈ placed, target ≤ entry.1 ∧ firstAtOrBehind placed stop target = entry.2) ∨
      (∀ entry ∈ placed, entry.1 < target) ∧ firstAtOrBehind placed stop target = stop := by
  unfold firstAtOrBehind
  cases hfind : placed.find? fun entry => target ≤ entry.1 with
  | none =>
    refine .inr ⟨fun entry hentry => ?_, rfl⟩
    simpa using List.find?_eq_none.1 hfind entry hentry
  | some entry =>
    exact .inl ⟨entry, List.mem_of_find?_eq_some hfind, by simpa using List.find?_some hfind, rfl⟩

/-- **What is placed at or behind the position that an offset moves to** is what was emitted at or
behind the offset. -/
theorem Ascends.firstAtOrBehind_le_iff (h : Ascends placed stop) {entry : Nat × Nat}
    (hentry : entry ∈ placed) :
    firstAtOrBehind placed stop target ≤ entry.2 ↔ target ≤ entry.1 := by
  obtain ⟨front, back, rfl⟩ := List.append_of_mem hentry
  obtain ⟨hpair, hstop⟩ := h
  obtain ⟨-, hback, hfront⟩ := List.pairwise_append.1 hpair
  constructor
  · intro hle
    obtain ⟨found, hfound, htarget, hmoved⟩ | ⟨-, hmoved⟩ :=
      firstAtOrBehind_cases (front ++ entry :: back) stop target
    · rw [hmoved] at hle
      rcases List.mem_append.1 hfound with hfound | hfound
      · have := (hfront found hfound entry List.mem_cons_self).1
        omega
      · rcases List.mem_cons.1 hfound with rfl | hfound
        · exact htarget
        · have := ((List.pairwise_cons.1 hback).1 found hfound).2
          omega
    · have := hstop entry hentry
      omega
  · intro htarget
    unfold firstAtOrBehind
    rw [List.find?_append]
    cases hfind : front.find? fun entry => target ≤ entry.1 with
    | none => simp [htarget]
    | some found =>
      exact Nat.le_of_lt (hfront found (List.mem_of_find?_eq_some hfind) entry
        List.mem_cons_self).2

theorem Ascends.firstAtOrBehind_le_stop (h : Ascends placed stop) :
    firstAtOrBehind placed stop target ≤ stop := by
  obtain ⟨entry, hentry, -, hmoved⟩ | ⟨-, hmoved⟩ := firstAtOrBehind_cases placed stop target
  · exact hmoved ▸ Nat.le_of_lt (h.lt_stop entry hentry)
  · exact Nat.le_of_eq hmoved

/-- Moving offsets keeps their order. -/
theorem Ascends.firstAtOrBehind_mono (h : Ascends placed stop) {first last : Int}
    (hle : first ≤ last) :
    firstAtOrBehind placed stop first ≤ firstAtOrBehind placed stop last := by
  obtain ⟨entry, hentry, htarget, hmoved⟩ | ⟨-, hmoved⟩ := firstAtOrBehind_cases placed stop last
  · rw [hmoved]
    exact (h.firstAtOrBehind_le_iff hentry).2 (Int.le_trans hle htarget)
  · rw [hmoved]
    exact h.firstAtOrBehind_le_stop

/-- Some code is left at or behind an offset if something was emitted there. -/
theorem Ascends.firstAtOrBehind_lt_stop_iff (h : Ascends placed stop) :
    firstAtOrBehind placed stop target < stop ↔ ∃ entry ∈ placed, target ≤ entry.1 := by
  constructor
  · intro hlt
    obtain ⟨entry, hentry, htarget, -⟩ | ⟨-, hmoved⟩ := firstAtOrBehind_cases placed stop target
    · exact ⟨entry, hentry, htarget⟩
    · omega
  · rintro ⟨entry, hentry, htarget⟩
    exact ((h.firstAtOrBehind_le_iff hentry).2 htarget).trans_lt (h.lt_stop entry hentry)

/-- A moved range is not empty if something was emitted in the range. -/
theorem Ascends.firstAtOrBehind_lt_iff (h : Ascends placed stop) {first last : Int} :
    firstAtOrBehind placed stop first < firstAtOrBehind placed stop last ↔
      ∃ entry ∈ placed, first ≤ entry.1 ∧ entry.1 < last := by
  constructor
  · intro hlt
    obtain ⟨entry, hentry, htarget, hmoved⟩ | ⟨-, hmoved⟩ :=
      firstAtOrBehind_cases placed stop first
    · refine ⟨entry, hentry, htarget, Int.not_le.1 fun hle => ?_⟩
      have := (h.firstAtOrBehind_le_iff hentry).2 hle
      omega
    · have hle : firstAtOrBehind placed stop last ≤ stop := h.firstAtOrBehind_le_stop
      omega
  · rintro ⟨entry, hentry, hfirst, hlast⟩
    refine ((h.firstAtOrBehind_le_iff hentry).2 hfirst).trans_lt (Nat.not_le.1 fun hle => ?_)
    exact absurd ((h.firstAtOrBehind_le_iff hentry).1 hle) (Int.not_le.2 hlast)

end Order

/-- Instructions that are placed one after another start at ascending offsets. -/
theorem ascending_offsetsFrom (offset : Nat) (instructions : List Instruction) :
    (offsetsFrom offset instructions).Pairwise (· < ·) := by
  induction instructions generalizing offset with
  | nil => exact List.pairwise_singleton _ _
  | cons head tail ih =>
    refine List.pairwise_cons.2 ⟨fun position hmem => ?_, ih _⟩
    have hle := (pairwise_offsetsFrom (offset + head.length offset) tail).2 position hmem
    have hpos := head.length_pos offset
    omega

/-- Instructions that are placed one after another ascend if they were emitted in order. -/
theorem ascends_zip_offsetsFrom {origins : List Nat} {instructions : List Instruction}
    {bytes : List UInt8} (hencode : Instruction.encodeFrom 0 instructions = .ok bytes)
    (horigins : origins.Pairwise (· ≤ ·)) (hlength : origins.length = instructions.length) :
    Ascends (origins.zip (offsetsFrom 0 instructions)) bytes.length := by
  have hpositions := ascending_offsetsFrom 0 instructions
  have hlast := getElem?_offsetsFrom_length hencode
  rw [Nat.zero_add] at hlast
  obtain ⟨hend, hlast⟩ := List.getElem?_eq_some_iff.1 hlast
  rw [List.pairwise_iff_getElem] at hpositions horigins
  refine ⟨List.pairwise_iff_getElem.2 fun i j hi hj hlt => ?_, fun entry hentry => ?_⟩
  · rw [List.length_zip] at hi hj
    rw [List.getElem_zip, List.getElem_zip]
    exact ⟨horigins i j (by omega) (by omega) hlt, hpositions i j (by omega) (by omega) hlt⟩
  · obtain ⟨i, hi, rfl⟩ := List.getElem_of_mem hentry
    rw [List.length_zip] at hi
    rw [List.getElem_zip, ← hlast]
    exact hpositions i _ (by omega) hend (by omega)

/-! ## Entries of the tables -/

/-- Whether an offset of a table is that of an instruction or the end. An offset beyond the end
counts as the end. -/
def Listing.isTableEdge (listing : Listing) (offset : Nat) : Bool :=
  listing.isEdge (min offset listing.size)

/-- Whether a handler is left: its offsets are those of instructions, something is emitted in its
range, and something is emitted at or behind its target. Emitted instructions are given with the
offsets that they are emitted for. -/
def Handler.survives (listing : Listing) (emitted : List (Nat × Instruction))
    (handler : Handler) : Bool :=
  listing.isTableEdge handler.start && listing.isTableEdge handler.stop &&
    listing.isTableEdge handler.target && emitted.any (handler.covers ·.1) &&
    emitted.any (handler.target ≤ ·.1)

/-- A handler with its offsets moved. -/
def Handler.moved (placed : List (Nat × Nat)) (size : Nat) (handler : Handler) : Handler where
  start := firstAtOrBehind placed size handler.start
  stop := firstAtOrBehind placed size handler.stop
  target := firstAtOrBehind placed size handler.target
  catchType := handler.catchType

/-- Whether a line number is left: its offset is that of an instruction, and something is emitted at
or behind it. -/
def LineEntry.survives (listing : Listing) (emitted : List (Nat × Instruction))
    (entry : LineEntry) : Bool :=
  listing.isTableEdge entry.start && emitted.any (entry.start ≤ ·.1)

/-- A line number with its offset moved. -/
def LineEntry.moved (placed : List (Nat × Nat)) (size : Nat) (entry : LineEntry) : LineEntry where
  start := firstAtOrBehind placed size entry.start
  line := entry.line

/-- Whether a variable is live at an offset. -/
def VariableEntry.covers (entry : VariableEntry) (offset : Nat) : Bool :=
  entry.start ≤ offset && offset < entry.start + entry.length

/-- Whether the live range of a variable is left: its ends are offsets of instructions, and
something is emitted in it. -/
def VariableEntry.survives (listing : Listing) (emitted : List (Nat × Instruction))
    (entry : VariableEntry) : Bool :=
  listing.isTableEdge entry.start && listing.isTableEdge (entry.start + entry.length) &&
    emitted.any (entry.covers ·.1)

/-- A live range with its ends moved. -/
def VariableEntry.moved (placed : List (Nat × Nat)) (size : Nat) (entry : VariableEntry) :
    VariableEntry :=
  let start := firstAtOrBehind placed size entry.start
  let stop := firstAtOrBehind placed size (entry.start + entry.length : Nat)
  { entry with start, length := stop - start }

section Covers

variable {placed : List (Nat × Nat)} {stop : Nat} {entry : Nat × Nat}

/-- What is placed in a moved range was emitted in the range. -/
theorem Ascends.range_iff (h : Ascends placed stop) (hentry : entry ∈ placed) {first last : Nat} :
    firstAtOrBehind placed stop first ≤ entry.2 ∧ entry.2 < firstAtOrBehind placed stop last ↔
      first ≤ entry.1 ∧ entry.1 < last := by
  rw [h.firstAtOrBehind_le_iff hentry, ← Nat.not_le, h.firstAtOrBehind_le_iff hentry]
  omega

/-- A moved handler covers what was emitted for the offsets that it covered. -/
theorem Handler.covers_moved (h : Ascends placed stop) (hentry : entry ∈ placed)
    (handler : Handler) :
    (handler.moved placed stop).covers entry.2 = handler.covers entry.1 := by
  rw [Bool.eq_iff_iff]
  simp only [Handler.covers, Bool.and_eq_true, decide_eq_true_eq]
  exact h.range_iff hentry

/-- A variable is live in a moved range at what was emitted for the offsets at which it was live. -/
theorem VariableEntry.covers_moved (h : Ascends placed stop) (hentry : entry ∈ placed)
    (range : VariableEntry) : (range.moved placed stop).covers entry.2 = range.covers entry.1 := by
  rw [Bool.eq_iff_iff]
  simp only [VariableEntry.covers, Bool.and_eq_true, decide_eq_true_eq]
  rw [← h.range_iff hentry]
  simp only [VariableEntry.moved]
  omega

end Covers

/-! ## Moving the tables -/

/-- Lists with the same first parts have members with the same first parts. -/
theorem exists_mem_iff_of_map_fst {α β γ : Type} {as : List (α × β)} {bs : List (α × γ)}
    (h : as.map (·.1) = bs.map (·.1)) (p : α → Prop) :
    (∃ a ∈ as, p a.1) ↔ ∃ b ∈ bs, p b.1 := by
  have hfirst {δ : Type} (cs : List (α × δ)) :
      (∃ c ∈ cs, p c.1) ↔ ∃ a ∈ cs.map (·.1), p a := by simp
  rw [hfirst, hfirst, h]

/-- A computation that keeps some members of a list and changes them. -/
theorem eq_of_filterMapE {α β : Type} {f : α → Except Failure (Option β)} {p : α → Bool}
    {g : α → β} {list : List α} {images : List β} (h : filterMapE f list = .ok images)
    (hf : ∀ a image, f a = .ok image → image = if p a then some (g a) else none) :
    images = (list.filter p).map g := by
  obtain ⟨results, hresults, himages⟩ := Except.bind_eq_ok.1 h
  cases himages
  have hall := forall₂_of_mapM hresults
  clear h hresults
  induction hall with
  | nil => rfl
  | @cons a image list results hhead _ ih =>
    rw [hf a image hhead, List.filter_cons]
    cases p a with
    | true => exact congrArg (g a :: ·) ih
    | false => exact ih

/-- Whether a placement moves the offsets of a body to where the instructions that are emitted for
them are placed. -/
structure Placement.Follows (placement : Placement) (listing : Listing)
    (emitted : List (Nat × Instruction)) (placed : List (Nat × Nat)) (size : Nat) : Prop where
  ascends : Ascends placed size
  origins : placed.map (·.1) = emitted.map (·.1)
  inside : ∀ entry ∈ emitted, entry.1 < listing.size
  newOffset : ∀ target position, listing.isEdge target = true →
    placement.newOffset target = .ok position → position = firstAtOrBehind placed size target

namespace Placement.Follows

variable {placement : Placement} {listing : Listing} {emitted : List (Nat × Instruction)}
  {placed : List (Nat × Nat)} {size : Nat}

theorem any_eq_true_iff (h : placement.Follows listing emitted placed size) {p : Nat → Bool} :
    emitted.any (p ·.1) = true ↔ ∃ entry ∈ placed, p entry.1 = true :=
  List.any_eq_true.trans (exists_mem_iff_of_map_fst h.origins (p · = true)).symm

/-- Some code is left at or behind an offset if something is emitted there. -/
theorem any_le_iff (h : placement.Follows listing emitted placed size) (offset : Nat) :
    emitted.any (offset ≤ ·.1) = true ↔ firstAtOrBehind placed size offset < size := by
  rw [h.any_eq_true_iff (p := (offset ≤ ·)), h.ascends.firstAtOrBehind_lt_stop_iff]
  simp only [decide_eq_true_eq, Int.ofNat_le]

/-- A moved range is not empty if something is emitted in the range. -/
theorem any_range_iff (h : placement.Follows listing emitted placed size) (first last : Nat) :
    emitted.any (fun entry => first ≤ entry.1 && entry.1 < last) = true ↔
      firstAtOrBehind placed size first < firstAtOrBehind placed size last := by
  rw [h.any_eq_true_iff (p := fun offset => first ≤ offset && offset < last),
    h.ascends.firstAtOrBehind_lt_iff]
  simp only [Bool.and_eq_true, decide_eq_true_eq, Int.ofNat_le, Int.ofNat_lt]

/-- Beyond the end nothing is emitted. -/
theorem firstAtOrBehind_of_le (h : placement.Follows listing emitted placed size) {offset : Nat}
    (hle : listing.size ≤ offset) : firstAtOrBehind placed size offset = size := by
  obtain ⟨entry, hentry, htarget, -⟩ | ⟨-, hmoved⟩ := firstAtOrBehind_cases placed size offset
  · have hmem : entry.1 ∈ emitted.map (·.1) := h.origins ▸ List.mem_map_of_mem hentry
    obtain ⟨source, hsource, heq⟩ := List.mem_map.1 hmem
    have hlt := h.inside source hsource
    omega
  · exact hmoved

/-- Offsets beyond the end move like the end. -/
theorem firstAtOrBehind_min (h : placement.Follows listing emitted placed size) (offset : Nat) :
    firstAtOrBehind placed size (min offset listing.size : Nat) =
      firstAtOrBehind placed size offset := by
  rcases Nat.le_total offset listing.size with hle | hle
  · rw [Nat.min_eq_left hle]
  · rw [Nat.min_eq_right hle, h.firstAtOrBehind_of_le hle,
      h.firstAtOrBehind_of_le (Nat.le_refl _)]

/-- **An offset of a table** moves to the first position that something at or behind it is emitted
to, unless it is inside of an instruction. -/
theorem mapOffset_eq (h : placement.Follows listing emitted placed size) {offset : Nat}
    {position : Option Nat} (hmap : placement.mapOffset listing offset = .ok position) :
    position = if listing.isTableEdge offset then some (firstAtOrBehind placed size offset)
      else none := by
  unfold Placement.mapOffset at hmap
  simp only at hmap
  unfold Listing.isTableEdge
  split at hmap
  · rename_i hedge
    obtain ⟨moved, hmoved, rfl⟩ := Except.map_eq_ok.1 hmap
    rw [if_pos hedge, h.newOffset _ _ hedge hmoved, h.firstAtOrBehind_min]
  · rename_i hinside
    cases hmap
    rw [if_neg hinside]

theorem moveHandler_eq (h : placement.Follows listing emitted placed size) {handler : Handler}
    {image : Option Handler}
    (hmove : Edit.moveHandler placement listing size handler = .ok image) :
    image = if handler.survives listing emitted then some (handler.moved placed size)
      else none := by
  obtain ⟨start, hstart, hmove⟩ := Except.bind_eq_ok.1 hmove
  obtain ⟨stop, hstop, hmove⟩ := Except.bind_eq_ok.1 hmove
  obtain ⟨target, htarget, hmove⟩ := Except.bind_eq_ok.1 hmove
  rw [h.mapOffset_eq hstart, h.mapOffset_eq hstop, h.mapOffset_eq htarget] at hmove
  have hrange : emitted.any (handler.covers ·.1) = true ↔
      firstAtOrBehind placed size handler.start < firstAtOrBehind placed size handler.stop :=
    h.any_range_iff handler.start handler.stop
  have hleft := h.any_le_iff handler.target
  unfold Handler.survives
  cases hs : listing.isTableEdge handler.start
  case false =>
    simp only [hs] at hmove
    cases hmove
    rfl
  cases he : listing.isTableEdge handler.stop
  case false =>
    simp only [hs, he] at hmove
    cases hmove
    rfl
  cases ht : listing.isTableEdge handler.target
  case false =>
    simp only [hs, he, ht] at hmove
    cases hmove
    rfl
  simp only [hs, he, ht, if_true] at hmove
  cases hmove
  simp only [Bool.and_eq_true, decide_eq_true_eq, Bool.true_and, hrange, hleft]
  rfl

theorem moveLine_eq (h : placement.Follows listing emitted placed size) {line : LineEntry}
    {image : Option LineEntry} (hmove : Edit.moveLine placement listing size line = .ok image) :
    image = if line.survives listing emitted then some (line.moved placed size) else none := by
  obtain ⟨start, hstart, hmove⟩ := Except.bind_eq_ok.1 hmove
  rw [h.mapOffset_eq hstart] at hmove
  have hleft := h.any_le_iff line.start
  unfold LineEntry.survives
  cases hs : listing.isTableEdge line.start
  case false =>
    simp only [hs] at hmove
    cases hmove
    rfl
  simp only [hs, if_true] at hmove
  cases hmove
  simp only [Bool.true_and, hleft]
  rfl

theorem moveVariable_eq (h : placement.Follows listing emitted placed size)
    {range : VariableEntry} {image : Option VariableEntry}
    (hmove : Edit.moveVariable placement listing range = .ok image) :
    image = if range.survives listing emitted then some (range.moved placed size) else none := by
  obtain ⟨start, hstart, hmove⟩ := Except.bind_eq_ok.1 hmove
  obtain ⟨stop, hstop, hmove⟩ := Except.bind_eq_ok.1 hmove
  rw [h.mapOffset_eq hstart, h.mapOffset_eq hstop] at hmove
  have hrange : emitted.any (range.covers ·.1) = true ↔ firstAtOrBehind placed size range.start <
      firstAtOrBehind placed size (range.start + range.length : Nat) :=
    h.any_range_iff range.start (range.start + range.length)
  unfold VariableEntry.survives
  cases hs : listing.isTableEdge range.start
  case false =>
    simp only [hs] at hmove
    cases hmove
    rfl
  cases he : listing.isTableEdge (range.start + range.length)
  case false =>
    simp only [hs, he] at hmove
    cases hmove
    rfl
  simp only [hs, he, if_true] at hmove
  cases hmove
  simp only [Bool.true_and, hrange]
  rfl

end Placement.Follows

namespace Edit

/-- The positions of an edited body, each with the offset that its instruction was emitted for. -/
def placed (edit : Edit) (original : List (Nat × Instruction)) (relocated : List Instruction) :
    List (Nat × Nat) :=
  ((edit.emission original).map (·.1)).zip (offsetsFrom 0 relocated)

/-- What becomes of the tables of a body whose instructions are placed again. -/
structure MovesTables (edit : Edit) (listing : Listing) (placed : List (Nat × Nat))
    (code edited : Code) : Prop where
  /-- In their order, the handlers are left that are not removed and still protect something. -/
  handlers : edited.handlers = ((withoutIndices edit.removedHandlers code.handlers).filter
    (·.survives listing (edit.emission listing.instructions))).map (·.moved placed edited.size)
  lines : edited.lines = (code.lines.filter
    (·.survives listing (edit.emission listing.instructions))).map (·.moved placed edited.size)
  localRanges : edited.localRanges = (code.localRanges.filter
    (·.survives listing (edit.emission listing.instructions))).map (·.moved placed edited.size)
  /-- Handlers and variables cover what was emitted for the offsets that they covered. -/
  covers : ∀ entry ∈ placed,
    (∀ handler : Handler,
      (handler.moved placed edited.size).covers entry.2 = handler.covers entry.1) ∧
    ∀ range : VariableEntry,
      (range.moved placed edited.size).covers entry.2 = range.covers entry.1
  /-- Where something is emitted at or behind an offset, the offset moves to the first position of
  it. -/
  leads : ∀ offset : Nat, (∃ entry ∈ placed, offset ≤ entry.1) →
    ∃ entry ∈ placed, offset ≤ entry.1 ∧ firstAtOrBehind placed edited.size offset = entry.2 ∧
      ∀ other ∈ placed, offset ≤ other.1 → entry.2 ≤ other.2
  /-- Moved offsets keep their order. -/
  mono : ∀ first last : Nat, first ≤ last →
    firstAtOrBehind placed edited.size first ≤ firstAtOrBehind placed edited.size last

theorem emission_ascends (edit : Edit) {code : List UInt8} {original : List (Nat × Instruction)}
    (h : decodeAll code = .ok original) :
    ((edit.emission original).map (·.1)).Pairwise (· ≤ ·) := by
  rw [List.pairwise_map, emission, List.pairwise_flatMap]
  refine ⟨fun entry _ => ?_, (ascending_of_decodeAll h).imp fun {a b} hlt x hx y hy => ?_⟩
  · rw [List.pairwise_map]
    exact List.pairwise_of_forall fun _ _ => Nat.le_refl _
  · obtain ⟨_, -, rfl⟩ := List.mem_map.1 hx
    obtain ⟨_, -, rfl⟩ := List.mem_map.1 hy
    exact Nat.le_of_lt hlt

theorem lt_of_mem_emission {edit : Edit} {code : List UInt8} {listing : Listing}
    (h : Listing.ofCode code = .ok listing) :
    ∀ entry ∈ edit.emission listing.instructions, entry.1 < listing.size := by
  intro entry hentry
  obtain ⟨source, hsource, hemitted⟩ := List.mem_flatMap.1 hentry
  obtain ⟨_, -, rfl⟩ := List.mem_map.1 hemitted
  rw [Listing.size_of_ofCode h]
  exact lt_of_decodeAll (Listing.ofCode_eq_ok h).1 source hsource

variable {edit : Edit} {code edited : Code} {pool : ConstantPool} {listing : Listing}
  {placement : Placement} {settled : List Emitted} {relocated : List Instruction}

/-- The placement of an edited body moves offsets to where instructions are placed. -/
theorem Relocates.follows (h : edit.Relocates edited listing placement settled relocated)
    (hlisting : Listing.ofCode code.bytes = .ok listing) :
    placement.Follows listing (edit.emission listing.instructions)
      (edit.placed listing.instructions relocated) edited.size where
  ascends := ascends_zip_offsetsFrom h.encodes
    (edit.emission_ascends (Listing.ofCode_eq_ok hlisting).1)
    (by rw [List.length_map, h.forms.length_eq])
  origins := by
    refine List.map_fst_zip ?_
    rw [List.length_map, length_offsetsFrom, h.forms.length_eq]
    exact Nat.le_succ _
  inside := lt_of_mem_emission hlisting
  newOffset target position hedge hnew := (h.newOffset target position hedge hnew).2

/-- **The tables of an edited body.** -/
theorem movesTables_of_apply (h : edit.apply code pool = .ok edited) :
    ∃ listing relocated, Listing.ofCode code.bytes = .ok listing ∧
      Instruction.encodeFrom 0 relocated = .ok edited.bytes ∧
      List.Forall₂ (fun source result => result.2.form = source.2.form)
        (edit.emission listing.instructions) ((offsetsFrom 0 relocated).zip relocated) ∧
      (edit.Writable → decodeAll edited.bytes =
        .ok ((offsetsFrom 0 relocated).zip (relocated.map Instruction.stored))) ∧
      edit.MovesTables listing (edit.placed listing.instructions relocated) code edited := by
  obtain ⟨listing, groups, placement, happlies⟩ := applies_of_apply h
  obtain ⟨settled, relocated, hr⟩ := happlies.relocates
  have hf := hr.follows happlies.reads
  have hforms : List.Forall₂ (fun source result => result.2.form = source.2.form)
      (edit.emission listing.instructions) ((offsetsFrom 0 relocated).zip relocated) := by
    have hlength : relocated.length ≤ (offsetsFrom 0 relocated).length := by
      rw [length_offsetsFrom]
      exact Nat.le_succ _
    have hall := hr.forms.imp fun _ _ hboth => hboth.1
    rwa [← List.map_snd_zip hlength, List.forall₂_map_right_iff] at hall
  refine ⟨listing, relocated, happlies.reads, hr.encodes, hforms, fun hw => ?_, ?_⟩
  · exact decodeAll_encodeFrom
      (hr.wellFormed (wellFormed_of_mem_emission hw (Listing.ofCode_eq_ok happlies.reads).1))
      hr.encodes
  · refine ⟨eq_of_filterMapE happlies.handlers fun _ _ => hf.moveHandler_eq,
      eq_of_filterMapE happlies.lines fun _ _ => hf.moveLine_eq,
      eq_of_filterMapE happlies.localRanges fun _ _ => hf.moveVariable_eq,
      fun entry hentry => ⟨fun handler => handler.covers_moved hf.ascends hentry,
        fun range => range.covers_moved hf.ascends hentry⟩, fun offset hbehind => ?_,
      fun first last hle => hf.ascends.firstAtOrBehind_mono (Int.ofNat_le.2 hle)⟩
    obtain ⟨entry, hentry, htarget, hmoved⟩ | ⟨hnone, -⟩ := firstAtOrBehind_cases
      (edit.placed listing.instructions relocated) edited.size offset
    · refine ⟨entry, hentry, Int.ofNat_le.1 htarget, hmoved, fun other hother hle => ?_⟩
      rw [← hmoved]
      exact (hf.ascends.firstAtOrBehind_le_iff hother).2 (Int.ofNat_le.2 hle)
    · obtain ⟨entry, hentry, hle⟩ := hbehind
      exact absurd (hnone entry hentry) (Int.not_lt.2 (Int.ofNat_le.2 hle))

/-- Three instructions that do nothing, with handlers, line numbers and variables. -/
def annotatedNops : Code where
  maxStack := 1
  maxLocals := 1
  bytes := [0, 0, 0, 0xB1, 0xBF]
  handlers := [⟨0, 2, 4, 0⟩, ⟨1, 2, 4, 0⟩, ⟨0, 3, 4, 0⟩, ⟨2, 100, 4, 0⟩]
  lines := [⟨0, 10⟩, ⟨1, 11⟩, ⟨4, 12⟩]
  localRanges := [⟨0, 5, 1, 2, 0⟩, ⟨1, 1, 3, 2, 0⟩]

/-- Deletes the second of them, puts another two before the third, and removes a handler. -/
def shiftNops : Edit where
  size := 5
  sites := [(1, ⟨[], some [], []⟩), (2, ⟨[.simple 0, .simple 0], none, []⟩)]
  removedHandlers := [2]

/-- The range of the first handler shrinks. That of the second one vanishes, and so does the live
range of a variable. The last handler ends with the code. -/
theorem movesTables_of_apply_shiftNops : ∃ edited,
    edited = ⟨1, 1, [0, 0, 0, 0, 0xB1, 0xBF], [⟨0, 1, 5, 0⟩, ⟨1, 6, 5, 0⟩],
      [⟨0, 10⟩, ⟨1, 11⟩, ⟨5, 12⟩], [⟨0, 6, 1, 2, 0⟩]⟩ ∧
    shiftNops.apply annotatedNops ⟨#[none]⟩ = .ok edited ∧
    ∃ listing relocated, Listing.ofCode annotatedNops.bytes = .ok listing ∧
      Instruction.encodeFrom 0 relocated = .ok edited.bytes ∧
      List.Forall₂ (fun source result => result.2.form = source.2.form)
        (shiftNops.emission listing.instructions) ((offsetsFrom 0 relocated).zip relocated) ∧
      shiftNops.MovesTables listing (shiftNops.placed listing.instructions relocated) annotatedNops
        edited := by
  have happly : shiftNops.apply annotatedNops ⟨#[none]⟩ = .ok ⟨1, 1, [0, 0, 0, 0, 0xB1, 0xBF],
      [⟨0, 1, 5, 0⟩, ⟨1, 6, 5, 0⟩], [⟨0, 10⟩, ⟨1, 11⟩, ⟨5, 12⟩], [⟨0, 6, 1, 2, 0⟩]⟩ := by
    decide +kernel
  obtain ⟨listing, relocated, hlisting, hencode, hforms, -, hmoves⟩ := movesTables_of_apply happly
  exact ⟨_, rfl, happly, listing, relocated, hlisting, hencode, hforms, hmoves⟩

end Edit

end JvmTrim
