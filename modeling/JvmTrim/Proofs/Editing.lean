import JvmTrim.Proofs.MarkingBounds
import JvmTrim.Proofs.Relocation

/-!
# Applying edits ends without faults

A branch is emitted only if it leads to an instruction of the body, and the table of first items has
an entry for every offset of the body and for its end. So all offsets that are looked up while a body
is placed and its tables move along are found, whatever the edit and the tables are.

Placing ends because an item that was widened cannot be widened again, and computing stack heights
ends because every offset becomes pending at most once.

## Main definitions

* `Placement.Covers`: a placement in which every offset of the body before the edit is found
* `HeightSearch.Affords`: a search of heights that a number of steps is enough for

## Main results

* `Placement.yields_settle`: placing ends within its bound
* `faultless_stackHeights`: computing the heights of a body does not fault
* `Edit.faultless_apply`: applying an edit does not fault
-/

namespace JvmTrim

/-! ## Finding new positions -/

namespace Edit

/-- Entries of the table of first items count items. -/
theorem firstItems_le {groups : List (Nat × List Emitted)} {count : Nat} {table : Array Nat} :
    (firstItems groups count table).size = table.size ∧
      ∀ k ∈ firstItems groups count table, k ∈ table ∨
        k ≤ count + (groups.flatMap (·.2)).length := by
  induction groups generalizing count table with
  | nil =>
    refine ⟨by simp [firstItems], fun k hk => ?_⟩
    rcases Array.mem_or_eq_of_mem_setIfInBounds hk with hold | rfl
    · exact .inl hold
    · exact .inr (Nat.le_add_right _ _)
  | cons group groups ih =>
    obtain ⟨offset, items⟩ := group
    obtain ⟨hsize, hall⟩ := @ih (count + items.length) (table.setIfInBounds offset count)
    refine ⟨by simpa [firstItems] using hsize, fun k hk => ?_⟩
    simp only [List.flatMap_cons, List.length_append]
    rcases hall k hk with hset | hle
    · rcases Array.mem_or_eq_of_mem_setIfInBounds hset with hold | rfl
      · exact .inl hold
      · exact .inr (by omega)
    · exact .inr (by omega)

end Edit

namespace Placement

variable {placement : Placement} {size : Nat}

/-- Whether every offset up to `size` of the body before the edit is found in a placement, and all
items lead to such offsets. -/
structure Covers (size : Nat) (placement : Placement) : Prop where
  table : placement.firstItem.size = size + 1
  entries : ∀ k ∈ placement.firstItem, k ≤ placement.items.length
  positions : placement.positions.size = placement.items.length + 1
  targets : ∀ item ∈ placement.items, ∀ displacement ∈ item.instruction.displacements,
    ∀ target, Instruction.target item.origin displacement = .ok target → target ≤ size

theorem Covers.faultless_newOffset (h : placement.Covers size) {offset : Nat} (hle : offset ≤ size) :
    Faultless (placement.newOffset offset) := by
  have hlt : offset < placement.firstItem.size := by
    rw [h.table]
    omega
  refine .orFail_of_isSome ?_
  have hentry := h.entries _ (Array.getElem_mem hlt)
  have hpositions := h.positions
  simp only [Array.getElem?_eq_getElem hlt, Option.bind_eq_bind, Option.bind_some, isSome_getElem?]
  omega

theorem Covers.faultless_mapOffset {listing : Listing} (h : placement.Covers listing.size)
    (offset : Nat) : Faultless (placement.mapOffset listing offset) := by
  have hle : min offset listing.size ≤ listing.size := Nat.min_le_right _ _
  exact .ite (fun _ => (h.faultless_newOffset hle).map _) fun _ => .ok _

/-! ## Placing -/

theorem Covers.faultless_widenItem (h : placement.Covers size) {item : Emitted}
    (hitem : item ∈ placement.items) (position : Nat) :
    Faultless (placement.widenItem item position) := by
  refine .ite (fun _ => .ok _) fun _ => ?_
  refine (item.instruction.ordinary_branchTargets _).faultless.bind fun targets htargets => ?_
  refine Faultless.bind (.mapM fun target htarget => ?_) fun distances _ => ?_
  · obtain ⟨displacement, hmem, hdisplacement⟩ := (mem_of_mapM htargets).2 target htarget
    have hle := h.targets item hitem displacement hmem target hdisplacement
    exact (h.faultless_newOffset hle).bind fun _ _ => .ok _
  · split
    · exact .ok _
    · split
      · exact .ok _
      · exact .error rfl

/-- Whether an item can be widened. -/
def isShort (item : Emitted) : Bool := item.instruction.widened?.isSome

/-- An item is widened once. -/
theorem isShort_of_widenItem {item wider : Emitted} {position : Nat}
    (h : placement.widenItem item position = .ok (some wider)) :
    isShort item = true ∧ isShort wider = false := by
  unfold widenItem at h
  split at h
  · cases h
  · obtain ⟨targets, -, h⟩ := Except.bind_eq_ok.mp h
    obtain ⟨distances, -, h⟩ := Except.bind_eq_ok.mp h
    split at h
    · cases h
    · split at h
      · rename_i instruction hw
        cases h
        refine ⟨Option.isSome_of_eq_some hw, ?_⟩
        unfold Instruction.widened? at hw
        split at hw
        · cases hw
          rfl
        · split at hw
          · cases hw
            rfl
          · cases hw
      · cases h

/-- Every item that is widened is one less that can be. -/
theorem countP_isShort {items : List Emitted} {positions : List Nat}
    {widened : List (Option Emitted)} (hlength : items.length ≤ positions.length)
    (h : List.Forall₂ (fun (pair : Emitted × Nat) wider =>
      placement.widenItem pair.1 pair.2 = .ok wider) (items.zip positions) widened) :
    items.countP isShort = widened.countP (·.isSome) +
      (items.zipWith (fun item wider => wider.getD item) widened).countP isShort := by
  induction items generalizing positions widened with
  | nil =>
    cases h
    rfl
  | cons item items ih =>
    cases positions with
    | nil => simp at hlength
    | cons position positions =>
      rw [List.zip_cons_cons] at h
      cases h with
      | @cons _ wider _ widened hw h =>
        have hrest := ih (by simpa using hlength) h
        cases wider with
        | none =>
          simp only [List.zipWith_cons_cons, List.countP_cons, hrest]
          simp only [Option.getD_none, Option.isSome_none, Bool.false_eq_true, if_false]
          omega
        | some wider =>
          obtain ⟨hshort, hwide⟩ := isShort_of_widenItem hw
          simp only [List.zipWith_cons_cons, List.countP_cons, hrest]
          simp only [Option.getD_some, Option.isSome_some, hshort, hwide, Bool.false_eq_true,
            if_true, if_false]
          omega

/-- A placement of the widened items covers what the placement of the items did. -/
theorem Covers.place_of_widens {items wider : List Emitted} {firstItem : Array Nat}
    (h : (place items firstItem).Covers size) (hwidens : List.Forall₂ Emitted.Widens items wider) :
    (place wider firstItem).Covers size := by
  have hlength : wider.length = items.length := hwidens.length_eq.symm
  refine ⟨h.table, fun k hk => hlength ▸ h.entries k hk, ?_, ?_⟩
  · rw [← Array.length_toList, length_positions_place, place]
  · intro item hitem displacement hd target htarget
    have hmem : item ∈ wider := hitem
    obtain ⟨index, hi, rfl⟩ := List.getElem_of_mem hmem
    have hi' : index < items.length := hlength ▸ hi
    have hold : items[index].Widens wider[index] := hwidens.get hi' hi
    refine h.targets items[index] (List.getElem_mem hi') displacement ?_ target ?_
    · rw [← Instruction.displacements_narrowed, ← hold.narrowed_eq,
        Instruction.displacements_narrowed]
      exact hd
    · rw [← hold.origin_eq]
      exact htarget

theorem Covers.yields_widen {items : List Emitted} {firstItem : Array Nat}
    (h : (place items firstItem).Covers size) :
    Yields (place items firstItem).widen fun result => ∀ wider, result = some wider →
      (place wider firstItem).Covers size ∧ wider.countP isShort < items.countP isShort := by
  refine Faultless.yields ?_ fun result hresult wider hsome => ?_
  · refine Faultless.bind (.mapM fun pair hpair => ?_) fun _ _ => .ite (fun _ => .ok _) fun _ => .ok _
    exact h.faultless_widenItem (List.of_mem_zip hpair).1 _
  · obtain ⟨widened, hwidened, hresult⟩ := Except.bind_eq_ok.mp hresult
    have hall := forall₂_of_mapM hwidened
    have hlength : items.length ≤ (place items firstItem).positions.toList.length := by
      rw [length_positions_place]
      exact Nat.le_succ _
    subst hsome
    split at hresult
    · cases hresult
    · rename_i hnone
      cases hresult
      refine ⟨h.place_of_widens (forall₂_widens_zipWith hlength hall), ?_⟩
      have hcount := countP_isShort hlength hall
      have hpositive : 0 < widened.countP (·.isSome) := by
        refine List.countP_pos_iff.mpr ?_
        simpa [Option.isSome_iff_ne_none] using hnone
      simp only [place] at hcount ⊢
      omega

/-- **Placing ends within its bound**: every round but the last widens an item for good. -/
theorem yields_settle {bound : Nat} {items : List Emitted} {firstItem : Array Nat}
    (h : (place items firstItem).Covers size) (hbound : items.countP isShort ≤ bound) :
    Yields (settle bound (place items firstItem)) fun placement => placement.Covers size := by
  induction bound using Nat.strongRecOn generalizing items with
  | ind bound ih =>
  unfold settle
  refine h.yields_widen.bind fun result hresult => ?_
  cases result with
  | none => exact .pure h
  | some wider =>
    obtain ⟨hcovers, hless⟩ := hresult wider rfl
    cases bound with
    | zero => omega
    | succ bound => exact ih bound (Nat.lt_succ_self _) hcovers (by omega)

end Placement

theorem Instruction.faultless_mapDisplacementsM {f : Int32 → Except Failure Int32}
    {instruction : Instruction} (h : ∀ displacement ∈ instruction.displacements,
      Faultless (f displacement)) : Faultless (instruction.mapDisplacementsM f) := by
  obtain ⟨opcode, operand⟩ := instruction
  cases operand
  case branch displacement => exact (h displacement List.mem_cons_self).bind fun _ _ => .ok _
  case table default low high displacements =>
    refine (h default List.mem_cons_self).bind fun _ _ => Faultless.bind (.mapM fun d hd => ?_)
      fun _ _ => .ok _
    exact h d (List.mem_cons_of_mem _ hd)
  case lookup default cases =>
    refine (h default List.mem_cons_self).bind fun _ _ => Faultless.bind (.mapM fun c hc => ?_)
      fun _ _ => .ok _
    exact (h c.2 (List.mem_cons_of_mem _ (List.mem_map_of_mem hc))).bind fun _ _ => .ok _
  all_goals exact .ok _

theorem Instruction.faultless_encode (instruction : Instruction) (offset : Nat) :
    Faultless (instruction.encode offset) := by
  obtain ⟨opcode, operand⟩ := instruction
  cases operand
  case branch displacement =>
    exact .ite (fun _ => .ok _) fun _ => .ite (fun _ => .ok _) fun _ => .error rfl
  all_goals exact .ok _

namespace Placement

variable {placement : Placement} {size : Nat}

theorem Covers.faultless_encode (h : placement.Covers size) : Faultless placement.encode := by
  refine Faultless.bind (.mapM fun pair hpair => ?_) fun _ _ => .ok _
  have hitem := (List.of_mem_zip hpair).1
  refine Faultless.bind ?_ fun _ _ => Instruction.faultless_encode _ _
  refine Instruction.faultless_mapDisplacementsM fun displacement hd => ?_
  refine Faultless.bind (.ite (fun _ => .error rfl) fun _ => .ok _) fun target htarget => ?_
  have hle := h.targets pair.1 hitem displacement hd target htarget
  exact (h.faultless_newOffset hle).bind fun _ _ => .ok _

end Placement

/-! ## Heights of the stack -/

namespace HeightSearch

variable {listing : Listing} {pool : ConstantPool} {search : HeightSearch} {offset budget : Nat}

/-- Whether the height before an offset is known. -/
def isKnown (search : HeightSearch) (offset : Nat) : Bool := (search.heights[offset]?.join).isSome

/-- Whether a number of steps is enough for a search: one for every pending offset, and one for every
offset whose height is not known yet. -/
structure Affords (listing : Listing) (budget : Nat) (search : HeightSearch) : Prop where
  heights : search.heights.size = listing.size
  pending : ∀ offset ∈ search.pending, listing.isBoundary offset = true
  steps : search.pending.length + remaining search.isKnown (List.range listing.size) ≤ budget

theorem yields_reach (hread : listing.Read) (h : search.Affords listing budget)
    (offset height : Nat) :
    Yields (search.reach listing offset height) (Affords listing budget) := by
  refine .ite (fun hboundary => ?_) fun _ => .error rfl
  split
  · exact .ite (fun _ => .ok h) fun _ => .error rfl
  · rename_i hunknown
    have hlt := hread.lt_size offset hboundary
    refine .ok ⟨by simpa using h.heights, fun o ho => ?_, ?_⟩
    · rcases List.mem_cons.mp ho with rfl | ho
      · exact hboundary
      · exact h.pending o ho
    · have hless : remaining (isKnown ⟨search.heights.setIfInBounds offset (some height),
          offset :: search.pending⟩) (List.range listing.size) <
          remaining search.isKnown (List.range listing.size) := by
        refine remaining_lt (fun o ho => ?_) (List.mem_range.mpr hlt) ?_ ?_
        · by_cases hne : offset = o
          · subst hne
            simp [isKnown, hunknown] at ho
          · simpa [isKnown, Array.getElem?_setIfInBounds_ne hne] using ho
        · simp [isKnown, hunknown]
        · simp [isKnown, h.heights, hlt]
      have hsteps := h.steps
      simp only [List.length_cons]
      omega

theorem yields_reachAll (hread : listing.Read) (h : search.Affords listing budget)
    (offsets : List Nat) (height : Nat) :
    Yields (search.reachAll listing offsets height) (Affords listing budget) :=
  .foldlM (fun _ offset _ hs => yields_reach hread hs offset height) h

theorem yields_follow (hread : listing.Read) (hoffset : listing.isBoundary offset = true)
    (h : search.Affords listing budget) :
    Yields (follow listing pool offset search) (Affords listing budget) := by
  refine ((Faultless.orFail_of_isSome hoffset).yields fun _ _ => trivial).bind
    fun instruction _ => ?_
  refine ((instruction.ordinary_stackEffect pool).faultless.yields fun _ _ => trivial).bind
    fun effect _ => ?_
  refine .ite (fun _ => ((Faultless.defect _).yields fun _ _ => trivial).bind fun _ _ => ?_)
    fun _ => ?_
  all_goals
    refine ((instruction.ordinary_branchTargets offset).faultless.yields fun _ _ => trivial).bind
      fun targets _ => (yields_reachAll hread h targets _).bind fun reached hreached => ?_
    split
    all_goals
      split
      · exact yields_reach hread hreached _ _
      · exact .pure hreached

/-- **A search of heights ends within its bound.** -/
theorem faultless_run (hread : listing.Read) (h : search.Affords listing budget) :
    Faultless (search.run listing pool budget) := by
  induction budget using Nat.strongRecOn generalizing search with
  | ind budget ih =>
  unfold run
  split
  · exact .ok _
  · rename_i offset rest hpending
    have hsteps := h.steps
    rw [hpending, List.length_cons] at hsteps
    cases budget with
    | zero => omega
    | succ budget =>
      have hleft : rest.length + remaining search.isKnown (List.range listing.size) ≤ budget := by
        omega
      have hrest : Affords listing budget { search with pending := rest } :=
        ⟨h.heights, fun o ho => h.pending o (hpending ▸ List.mem_cons_of_mem _ ho), hleft⟩
      have hoffset := h.pending offset (hpending ▸ List.mem_cons_self)
      exact (yields_follow hread hoffset hrest).1.bind fun next hnext =>
        ih budget (Nat.lt_succ_self _) ((yields_follow hread hoffset hrest).2 next hnext)

end HeightSearch

theorem faultless_stackHeights (code : Code) (pool : ConstantPool) :
    Faultless (stackHeights code pool) := by
  refine (Listing.ordinary_ofCode _).faultless.bind fun listing hlisting => ?_
  have hread := Listing.read_of_ofCode hlisting
  have hstart : HeightSearch.Affords listing listing.size
      ⟨Array.replicate listing.size none, []⟩ := by
    refine ⟨by simp, fun _ h => absurd h List.not_mem_nil, ?_⟩
    refine Nat.le_trans (Nat.add_le_add_left remaining_le_length _) ?_
    simp
  have hrest {entered : HeightSearch} (hentered : entered.Affords listing listing.size) :
      Faultless (do
        let search ← entered.reachAll listing (code.handlers.map (·.target)) 1
        search.run listing pool listing.size) := by
    have hall := HeightSearch.yields_reachAll hread hentered (code.handlers.map (·.target)) 1
    exact hall.1.bind fun search hsearch =>
      HeightSearch.faultless_run hread (hall.2 search hsearch)
  have hentry := HeightSearch.yields_reach hread hstart 0 0
  exact .ite (fun _ => hentry.1.bind fun entered h => hrest (hentry.2 entered h))
    fun _ => (Faultless.pure _).bind fun entered h => by
      cases h
      exact hrest hstart

theorem faultless_maxStackHeight (code : Code) (pool : ConstantPool) :
    Faultless (maxStackHeight code pool) := by
  refine (ordinary_decodeAll _).faultless.bind fun instructions _ =>
    (faultless_stackHeights code pool).bind fun heights _ => ?_
  refine Faultless.bind ?_ fun highest _ => .ite (fun _ => .ok _) fun _ => .defect _
  refine .foldlM fun highest (offset, instruction) _ => ?_
  simp only
  split
  · exact .ok _
  · exact (instruction.ordinary_stackEffect pool).faultless.bind fun _ _ => .ok _

/-! ## The whole edit -/

namespace Edit

theorem faultless_checkTargets (listing : Listing) (offset : Nat) (instruction : Instruction) :
    Faultless (listing.checkTargets offset instruction) :=
  (instruction.ordinary_branchTargets offset).faultless.bind fun _ _ =>
    .forM fun _ _ => .ite (fun _ => .ok _) fun _ => .error rfl

theorem faultless_emit (edit : Edit) (listing : Listing) : Faultless (edit.emit listing) :=
  .mapM fun _ _ => Faultless.bind
    (.mapM fun _ _ => (faultless_checkTargets _ _ _).bind fun _ _ => .ok _) fun _ _ => .ok _

/-- What an edit emits is placed so that every offset of the body is found. -/
theorem covers_place {edit : Edit} {listing : Listing} {groups : List (Nat × List Emitted)}
    (hread : listing.Read) (h : edit.emit listing = .ok groups) :
    (Placement.place (groups.flatMap (·.2)) (firstItems groups 0
      (Array.replicate (listing.size + 1) 0))).Covers listing.size := by
  obtain ⟨hsize, hentries⟩ := @firstItems_le groups 0 (Array.replicate (listing.size + 1) 0)
  refine ⟨by simpa [Placement.place] using hsize, fun k hk => ?_, ?_, ?_⟩
  · rcases hentries k hk with hzero | hle
    · rw [(Array.mem_replicate.mp hzero).2]
      exact Nat.zero_le _
    · rw [Nat.zero_add] at hle
      exact hle
  · rw [← Array.length_toList, Placement.length_positions_place, Placement.place]
  · obtain ⟨rfl, htargets⟩ := emit_eq_ok h
    intro item hitem displacement hd target htarget
    have hmem : item ∈ (edit.itemGroups listing.instructions).flatMap (·.2) := hitem
    rw [flatMap_itemGroups] at hmem
    obtain ⟨entry, hentry, rfl⟩ := List.mem_map.mp hmem
    rw [Instruction.displacements_narrowed] at hd
    obtain ⟨found, hfound, hboundary⟩ := htargets entry hentry displacement hd
    cases hfound.symm.trans htarget
    exact Nat.le_of_lt (hread.lt_size _ hboundary)

theorem faultless_filterMapE {α β : Type} {f : α → Except Failure (Option β)} {list : List α}
    (h : ∀ a, Faultless (f a)) : Faultless (filterMapE f list) :=
  (Faultless.mapM fun a _ => h a).bind fun _ _ => .ok _

variable {placement : Placement} {listing : Listing}

theorem faultless_moveHandler (h : placement.Covers listing.size) (size : Nat) (handler : Handler) :
    Faultless (moveHandler placement listing size handler) := by
  refine (h.faultless_mapOffset _).bind fun start _ => (h.faultless_mapOffset _).bind fun stop _ =>
    (h.faultless_mapOffset _).bind fun target _ => ?_
  split <;> exact .ok _

theorem faultless_moveLine (h : placement.Covers listing.size) (size : Nat) (entry : LineEntry) :
    Faultless (moveLine placement listing size entry) := by
  refine (h.faultless_mapOffset _).bind fun start _ => ?_
  split <;> exact .ok _

theorem faultless_moveVariable (h : placement.Covers listing.size) (entry : VariableEntry) :
    Faultless (moveVariable placement listing entry) := by
  refine (h.faultless_mapOffset _).bind fun start _ => (h.faultless_mapOffset _).bind fun stop _ => ?_
  split <;> exact .ok _

/-- **Applying an edit does not fault**, whatever the edit and the body are. -/
theorem faultless_apply (edit : Edit) (code : Code) (pool : ConstantPool) :
    Faultless (edit.apply code pool) := by
  refine .check ((Listing.ordinary_ofCode _).faultless.bind fun listing hlisting => ?_)
  refine Faultless.bind (.forM fun _ _ => .ite (fun _ => .ok _) fun _ => .defect _) fun _ _ => ?_
  refine (edit.faultless_emit listing).bind fun groups hgroups => ?_
  have hcovers := covers_place (Listing.read_of_ofCode hlisting) hgroups
  have hsettle := Placement.yields_settle hcovers List.countP_le_length
  refine hsettle.1.bind fun placement hplacement => ?_
  have hplaced := hsettle.2 placement hplacement
  exact hplaced.faultless_encode.bind fun bytes _ =>
    (faultless_filterMapE (faultless_moveHandler hplaced _)).bind fun _ _ =>
      (faultless_filterMapE (faultless_moveLine hplaced _)).bind fun _ _ =>
        (faultless_filterMapE (faultless_moveVariable hplaced)).bind fun _ _ =>
          (faultless_maxStackHeight _ pool).bind fun _ _ => .ok _

end Edit

end JvmTrim
