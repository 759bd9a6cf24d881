import JvmTrim.Edit.Apply
import JvmTrim.Proofs.Boundaries
import Mathlib.Data.List.TakeWhile

/-!
# Edited bodies, instruction by instruction

An edited body decodes to what the edit emits, instruction by instruction. A jump may change its
width, a constant load may be stored in its two-byte form, and every displacement is the one that
leads to the first instruction emitted at or behind its old target. Widths and positions depend on
one another; all that the proof needs of the placement is that its positions are the sums of the
lengths of its items, and that widening changes neither the form nor the length of anything else.

## Main definitions

* `Instruction.form`: an instruction apart from its width and displacements
* `Edit.emission`: what an edit emits for the instructions of a body
* `firstAtOrBehind`: where an offset of the body before the edit moves to
* `Edit.Stands`: an instruction of the edited body stands for an emitted one
* `Edit.Applies`: the steps of applying an edit
* `Edit.Relocates`: the items that are placed, and the instructions that they become

## Main results

* `Edit.decodeAll_apply`: the edited body decodes to what the edit emits
-/

namespace JvmTrim

namespace Instruction

/-- An instruction apart from the width of a jump and from its displacements. -/
def form (instruction : Instruction) : Instruction :=
  instruction.narrowed.mapDisplacements fun _ => 0

/-- Whether decoding can give the instruction. -/
def Decodable (instruction : Instruction) : Prop :=
  ∃ code offset, decodeAt code offset = .ok instruction

/-- Whether an edit may emit the instruction: decoding can give it, or it is a constant load, of
which any index is allowed. -/
def Writable (instruction : Instruction) : Prop :=
  instruction.Decodable ∨ ∃ index, instruction = ⟨Opcode.ldc, .constant index⟩

theorem layout?_ldc : Opcode.ldc.layout? = some .shortConstant := by decide +kernel

theorem Decodable.wellFormed {instruction : Instruction} (h : instruction.Decodable) :
    instruction.WellFormed := by
  obtain ⟨code, offset, h⟩ := h
  obtain ⟨cursor, -, h⟩ := Except.bind_eq_ok.mp h
  obtain ⟨⟨_, _⟩, hd, h⟩ := Except.bind_eq_ok.mp h
  cases h
  exact wellFormed_of_decode hd

theorem Writable.wellFormed {instruction : Instruction} (h : instruction.Writable) :
    instruction.WellFormed := by
  rcases h with h | ⟨index, rfl⟩
  · exact h.wellFormed
  · exact ⟨.shortConstant, layout?_ldc, trivial⟩

/-! ## Widths of jumps -/

theorem layout?_goto : Opcode.goto.layout? = some .branch ∧ Opcode.jsr.layout? = some .branch ∧
    Opcode.gotoW.layout? = some .wideBranch ∧ Opcode.jsrW.layout? = some .wideBranch := by
  decide +kernel

/-- The operand of a jump, in either width. -/
theorem WellFormed.operand_eq_branch {instruction : Instruction} (h : instruction.WellFormed)
    (hl : instruction.opcode.layout? = some .branch ∨
      instruction.opcode.layout? = some .wideBranch) :
    ∃ displacement, instruction.operand = .branch displacement := by
  obtain ⟨layout, hl', ha⟩ := h
  obtain ⟨opcode, operand⟩ := instruction
  rcases hl with hl | hl
  all_goals
    simp only at hl hl' ha
    rw [hl] at hl'
    cases hl'
    cases operand <;> simp_all [Layout.Admits]

theorem WellFormed.narrowed {instruction : Instruction} (h : instruction.WellFormed) :
    instruction.narrowed.WellFormed := by
  unfold Instruction.narrowed
  split
  · rename_i hop
    obtain ⟨d, hd⟩ := h.operand_eq_branch (.inr (hop ▸ layout?_goto.2.2.1))
    exact ⟨.branch, layout?_goto.1, by simp [hd, Layout.Admits]⟩
  · split
    · rename_i hop
      obtain ⟨d, hd⟩ := h.operand_eq_branch (.inr (hop ▸ layout?_goto.2.2.2))
      exact ⟨.branch, layout?_goto.2.1, by simp [hd, Layout.Admits]⟩
    · exact h

theorem WellFormed.widened {instruction wider : Instruction} (h : instruction.WellFormed)
    (hw : instruction.widened? = some wider) : wider.WellFormed := by
  unfold widened? at hw
  split at hw
  · rename_i hop
    obtain ⟨d, hd⟩ := h.operand_eq_branch (.inl (hop ▸ layout?_goto.1))
    cases hw
    exact ⟨.wideBranch, layout?_goto.2.2.1, by simp [hd, Layout.Admits]⟩
  · split at hw
    · rename_i hop
      obtain ⟨d, hd⟩ := h.operand_eq_branch (.inl (hop ▸ layout?_goto.2.1))
      cases hw
      exact ⟨.wideBranch, layout?_goto.2.2.2, by simp [hd, Layout.Admits]⟩
    · cases hw

theorem narrowed_of_widened {instruction wider : Instruction}
    (hw : instruction.widened? = some wider) : wider.narrowed = instruction := by
  obtain ⟨opcode, operand⟩ := instruction
  unfold widened? at hw
  split at hw
  · rename_i hop
    cases hw
    simp only at hop
    subst hop
    rfl
  · split at hw
    · rename_i hop
      cases hw
      simp only at hop
      subst hop
      rfl
    · cases hw

@[simp] theorem narrowed_narrowed (instruction : Instruction) :
    instruction.narrowed.narrowed = instruction.narrowed := by
  unfold narrowed
  split
  · rfl
  · split
    · rfl
    · simp [*]

@[simp] theorem operand_narrowed (instruction : Instruction) :
    instruction.narrowed.operand = instruction.operand := by
  unfold narrowed
  split
  · rfl
  · split <;> rfl

/-! ## Displacements -/

/-- Whether two instructions differ in their displacements only. -/
def SameButDisplacements (a b : Instruction) : Prop :=
  (a.mapDisplacements fun _ => 0) = b.mapDisplacements fun _ => 0

theorem length_mapDisplacements (f : Int32 → Int32) (instruction : Instruction) (offset : Nat) :
    (instruction.mapDisplacements f).length offset = instruction.length offset := by
  obtain ⟨opcode, operand⟩ := instruction
  cases operand with
  | table default low high displacements => simp [mapDisplacements, length]
  | lookup default cases => simp [mapDisplacements, length]
  | _ => rfl

theorem wellFormed_mapDisplacements (f : Int32 → Int32) (instruction : Instruction) :
    (instruction.mapDisplacements f).WellFormed ↔ instruction.WellFormed := by
  obtain ⟨opcode, operand⟩ := instruction
  cases operand with
  | branch displacement | table default low high displacements | lookup default cases =>
    simp only [mapDisplacements, WellFormed]
    refine exists_congr fun layout => and_congr_right fun _ => ?_
    cases layout <;> simp [Layout.Admits]
  | _ => rfl

theorem narrowed_mapDisplacements (f : Int32 → Int32) (instruction : Instruction) :
    (instruction.mapDisplacements f).narrowed = instruction.narrowed.mapDisplacements f := by
  obtain ⟨opcode, operand⟩ := instruction
  by_cases h₁ : opcode = Opcode.gotoW
  · subst h₁
    cases operand <;> rfl
  · by_cases h₂ : opcode = Opcode.jsrW
    · subst h₂
      cases operand <;> rfl
    · cases operand <;> simp [mapDisplacements, narrowed, h₁, h₂]

theorem stored_mapDisplacements (f : Int32 → Int32) (instruction : Instruction) :
    (instruction.mapDisplacements f).stored = instruction.stored.mapDisplacements f := by
  obtain ⟨opcode, operand⟩ := instruction
  cases operand with
  | constant index =>
    by_cases hc : opcode = Opcode.ldc ∧ 255 < index <;> simp [mapDisplacements, stored, hc]
  | _ => rfl

theorem stored_narrowed (instruction : Instruction) :
    instruction.narrowed.stored = instruction.stored.narrowed := by
  obtain ⟨opcode, operand⟩ := instruction
  by_cases h₁ : opcode = Opcode.gotoW
  · subst h₁
    rw [@stored_of_ne_ldc ⟨Opcode.gotoW, operand⟩ (show Opcode.gotoW ≠ Opcode.ldc by decide)]
    exact @stored_of_ne_ldc ⟨Opcode.goto, operand⟩ (show Opcode.goto ≠ Opcode.ldc by decide)
  · by_cases h₂ : opcode = Opcode.jsrW
    · subst h₂
      rw [@stored_of_ne_ldc ⟨Opcode.jsrW, operand⟩ (show Opcode.jsrW ≠ Opcode.ldc by decide)]
      exact @stored_of_ne_ldc ⟨Opcode.jsr, operand⟩ (show Opcode.jsr ≠ Opcode.ldc by decide)
    · have hn : narrowed ⟨opcode, operand⟩ = ⟨opcode, operand⟩ := by
        simp [narrowed, h₁, h₂]
      rw [hn]
      cases operand with
      | constant index =>
        simp only [stored]
        split
        · rfl
        · exact hn.symm
      | _ => exact hn.symm

theorem displacements_stored (instruction : Instruction) :
    instruction.stored.displacements = instruction.displacements := by
  obtain ⟨opcode, operand⟩ := instruction
  cases operand with
  | constant index =>
    simp only [stored]
    split <;> rfl
  | _ => rfl

theorem displacements_narrowed (instruction : Instruction) :
    instruction.narrowed.displacements = instruction.displacements := by
  simp [displacements]

theorem SameButDisplacements.length_eq {a b : Instruction} (h : a.SameButDisplacements b)
    (offset : Nat) : a.length offset = b.length offset := by
  rw [← length_mapDisplacements (fun _ => 0) a, h, length_mapDisplacements]

theorem SameButDisplacements.wellFormed_iff {a b : Instruction} (h : a.SameButDisplacements b) :
    a.WellFormed ↔ b.WellFormed := by
  rw [← wellFormed_mapDisplacements (fun _ => 0) a, h, wellFormed_mapDisplacements]

theorem SameButDisplacements.form_eq {a b : Instruction} (h : a.SameButDisplacements b) :
    a.form = b.form := by
  rw [form, form, ← narrowed_mapDisplacements, ← narrowed_mapDisplacements, h]

theorem SameButDisplacements.form_stored_eq {a b : Instruction} (h : a.SameButDisplacements b) :
    a.stored.form = b.stored.form := by
  unfold form
  rw [← stored_narrowed, ← stored_narrowed, ← stored_mapDisplacements, ← stored_mapDisplacements,
    ← narrowed_mapDisplacements, ← narrowed_mapDisplacements, h]

/-- Replacing displacements one by one, where that can fail. -/
theorem mapDisplacementsM_eq_ok {f : Int32 → Except Failure Int32} {a b : Instruction}
    (h : a.mapDisplacementsM f = .ok b) :
    b.SameButDisplacements a ∧
      List.Forall₂ (fun d d' => f d = .ok d') a.displacements b.displacements := by
  obtain ⟨opcode, operand⟩ := a
  cases operand with
  | branch displacement =>
    obtain ⟨d, hd, h⟩ := Except.bind_eq_ok.mp h
    cases h
    exact ⟨rfl, .cons hd .nil⟩
  | table default low high displacements =>
    obtain ⟨d, hd, h⟩ := Except.bind_eq_ok.mp h
    obtain ⟨ds, hds, h⟩ := Except.bind_eq_ok.mp h
    cases h
    have hall := forall₂_of_mapM hds
    refine ⟨?_, .cons hd hall⟩
    simp only [SameButDisplacements, mapDisplacements, List.map_const', hall.length_eq]
  | lookup default cases =>
    obtain ⟨d, hd, h⟩ := Except.bind_eq_ok.mp h
    obtain ⟨cs, hcs, h⟩ := Except.bind_eq_ok.mp h
    cases h
    have hall : List.Forall₂ (fun c c' : Int32 × Int32 => c'.1 = c.1 ∧ f c.2 = .ok c'.2) cases cs :=
      (forall₂_of_mapM hcs).imp fun c c' hc => by
        obtain ⟨d, hd, hc⟩ := Except.bind_eq_ok.mp hc
        cases hc
        exact ⟨rfl, hd⟩
    have hkeys : (cs.map fun c => (c.1, (0 : Int32))) = cases.map fun c => (c.1, 0) := by
      rw [← List.forall₂_eq_eq_eq, List.forall₂_map_left_iff, List.forall₂_map_right_iff]
      refine List.Forall₂.flip (hall.imp fun c c' hc => ?_)
      simp [flip, hc.1]
    refine ⟨?_, .cons hd ?_⟩
    · simp only [SameButDisplacements, mapDisplacements, hkeys]
    · exact List.forall₂_map_left_iff.mpr
        (List.forall₂_map_right_iff.mpr (hall.imp fun _ _ hc => hc.2))
  | _ =>
    cases h
    exact ⟨rfl, .nil⟩

end Instruction

/-! ## Placements -/

/-- Whether an item is another one, possibly in its long form. -/
structure Emitted.Widens (a b : Emitted) : Prop where
  origin_eq : b.origin = a.origin
  narrowed_eq : b.instruction.narrowed = a.instruction.narrowed
  wellFormed : a.instruction.WellFormed → b.instruction.WellFormed

theorem Emitted.Widens.refl (item : Emitted) : item.Widens item := ⟨rfl, rfl, id⟩

theorem Emitted.Widens.trans {a b c : Emitted} (hab : a.Widens b) (hbc : b.Widens c) :
    a.Widens c where
  origin_eq := hbc.origin_eq.trans hab.origin_eq
  narrowed_eq := hbc.narrowed_eq.trans hab.narrowed_eq
  wellFormed h := hbc.wellFormed (hab.wellFormed h)

namespace Placement

theorem widens_of_widenItem {placement : Placement} {item wider : Emitted} {position : Nat}
    (h : placement.widenItem item position = .ok (some wider)) : item.Widens wider := by
  unfold widenItem at h
  split at h
  · cases h
  · obtain ⟨targets, -, h⟩ := Except.bind_eq_ok.mp h
    obtain ⟨distances, -, h⟩ := Except.bind_eq_ok.mp h
    split at h
    · cases h
    · split at h
      · rename_i instruction hw
        cases h
        exact ⟨rfl, by
          rw [Instruction.narrowed_of_widened hw, ← Instruction.narrowed_of_widened hw,
            Instruction.narrowed_narrowed], fun hf => hf.widened hw⟩
      · cases h

/-- Taking the wider items where there are some. -/
theorem forall₂_widens_zipWith {placement : Placement} {items : List Emitted}
    {positions : List Nat} {widened : List (Option Emitted)}
    (hlength : items.length ≤ positions.length)
    (h : List.Forall₂ (fun (pair : Emitted × Nat) wider =>
      placement.widenItem pair.1 pair.2 = .ok wider) (items.zip positions) widened) :
    List.Forall₂ Emitted.Widens items
      (items.zipWith (fun item wider => wider.getD item) widened) := by
  induction items generalizing positions widened with
  | nil => exact .nil
  | cons item items ih =>
    cases positions with
    | nil => simp at hlength
    | cons position positions =>
      rw [List.zip_cons_cons] at h
      cases h with
      | @cons _ wider _ widened hw h =>
        refine .cons ?_ (ih (by simpa using hlength) h)
        cases wider with
        | none => exact .refl item
        | some wider => exact widens_of_widenItem hw

theorem length_positions_place (items : List Emitted) (firstItem : Array Nat) :
    (place items firstItem).positions.toList.length = items.length + 1 := by
  simp [place, length_offsetsFrom]

/-- **Settling a placement** only widens items. -/
theorem settle_eq_ok {bound : Nat} {items : List Emitted} {firstItem : Array Nat}
    {placement : Placement} (h : settle bound (place items firstItem) = .ok placement) :
    ∃ settled, placement = place settled firstItem ∧
      List.Forall₂ Emitted.Widens items settled := by
  induction bound generalizing items with
  | zero =>
    unfold settle at h
    obtain ⟨wider, hw, h⟩ := Except.bind_eq_ok.mp h
    cases wider with
    | none =>
      cases h
      exact ⟨items, rfl, List.forall₂_same.mpr fun item _ => .refl item⟩
    | some wider => cases h
  | succ bound ih =>
    unfold settle at h
    obtain ⟨wider, hw, h⟩ := Except.bind_eq_ok.mp h
    cases wider with
    | none =>
      cases h
      exact ⟨items, rfl, List.forall₂_same.mpr fun item _ => .refl item⟩
    | some wider =>
      obtain ⟨settled, hp, hs⟩ := ih h
      obtain ⟨widened, hm, hw⟩ := Except.bind_eq_ok.mp hw
      split at hw
      · cases hw
      · cases hw
        have hfirst := forall₂_widens_zipWith (by rw [length_positions_place]; exact Nat.le_succ _)
          (forall₂_of_mapM hm)
        exact ⟨settled, hp, forall₂_comp (fun _ _ _ hab hbc => hab.trans hbc) hfirst hs⟩

theorem length_of_relocate {placement : Placement} {item : Emitted} {position : Nat}
    {instruction : Instruction} (h : placement.relocate item position = .ok instruction) :
    instruction.length position = item.instruction.length position :=
  (Instruction.mapDisplacementsM_eq_ok h).1.length_eq position

end Placement

/-- Items that become instructions one by one encode to the bytes of these instructions placed one
after another, if the items were measured with the lengths that their instructions have. -/
theorem encodeFrom_of_parts {α : Type} {measured : α → Instruction}
    {become : α → Nat → Except Failure Instruction} {items : List α}
    (hlength : ∀ item ∈ items, ∀ offset instruction, become item offset = .ok instruction →
      instruction.length offset = (measured item).length offset)
    {offset : Nat} {parts : List (List UInt8)}
    (h : List.Forall₂ (fun (pair : α × Nat) part => (do
        (← become pair.1 pair.2).encode pair.2) = .ok part)
      (items.zip (offsetsFrom offset (items.map measured))) parts) :
    ∃ instructions, Instruction.encodeFrom offset instructions = .ok parts.flatten ∧
      offsetsFrom offset instructions = offsetsFrom offset (items.map measured) ∧
      List.Forall₂ (fun (pair : α × Nat) instruction =>
        become pair.1 pair.2 = .ok instruction)
        (items.zip (offsetsFrom offset instructions)) instructions := by
  induction items generalizing offset parts with
  | nil =>
    cases h
    exact ⟨[], rfl, rfl, .nil⟩
  | cons item items ih =>
    simp only [List.map_cons, offsetsFrom, List.zip_cons_cons] at h
    cases h with
    | @cons _ part _ parts hp h =>
      obtain ⟨instructions, he, ho, hr⟩ :=
        ih (fun item hmem => hlength item (List.mem_cons_of_mem _ hmem)) h
      obtain ⟨instruction, hi, hp⟩ := Except.bind_eq_ok.mp hp
      have hlength := hlength item List.mem_cons_self offset instruction hi
      refine ⟨instruction :: instructions, ?_, ?_, ?_⟩
      · simp [Instruction.encodeFrom, hp, hlength, he, bind, Except.bind, pure, Except.pure]
      · simp [offsetsFrom, hlength, ho]
      · rw [offsetsFrom, hlength, List.zip_cons_cons]
        exact .cons hi hr

/-- The last position is behind all bytes. -/
theorem getElem?_offsetsFrom_length {instructions : List Instruction} {offset : Nat}
    {bytes : List UInt8} (h : Instruction.encodeFrom offset instructions = .ok bytes) :
    (offsetsFrom offset instructions)[instructions.length]? = some (offset + bytes.length) := by
  induction instructions generalizing offset bytes with
  | nil =>
    cases h
    rfl
  | cons head tail ih =>
    obtain ⟨first, hf, h⟩ := Except.bind_eq_ok.mp h
    obtain ⟨others, ho, h⟩ := Except.bind_eq_ok.mp h
    cases h
    rw [offsetsFrom, List.length_cons, List.getElem?_cons_succ, ih ho,
      ← Instruction.length_of_encode hf, List.length_append, Nat.add_assoc]

theorem pairwise_offsetsFrom (offset : Nat) (instructions : List Instruction) :
    (offsetsFrom offset instructions).Pairwise (· ≤ ·) ∧
      ∀ position ∈ offsetsFrom offset instructions, offset ≤ position := by
  induction instructions generalizing offset with
  | nil => simp [offsetsFrom]
  | cons head tail ih =>
    obtain ⟨hpair, hle⟩ := ih (offset + head.length offset)
    have hbehind : ∀ position ∈ offsetsFrom (offset + head.length offset) tail,
        offset ≤ position := fun position hmem =>
      (Nat.le_add_right _ _).trans (hle position hmem)
    refine ⟨List.pairwise_cons.mpr ⟨hbehind, hpair⟩, fun position hmem => ?_⟩
    exact (List.mem_cons.mp hmem).elim (fun heq => Nat.le_of_eq heq.symm) (hbehind position)

/-- No position is beyond the last one. -/
theorem le_of_mem_offsetsFrom {instructions : List Instruction} {offset position : Nat}
    {bytes : List UInt8} (h : Instruction.encodeFrom offset instructions = .ok bytes)
    (hp : position ∈ offsetsFrom offset instructions) : position ≤ offset + bytes.length := by
  induction instructions generalizing offset bytes with
  | nil =>
    cases h
    simp only [offsetsFrom, List.mem_singleton] at hp
    omega
  | cons head tail ih =>
    obtain ⟨first, hf, h⟩ := Except.bind_eq_ok.mp h
    obtain ⟨others, ho, h⟩ := Except.bind_eq_ok.mp h
    cases h
    rw [offsetsFrom, List.mem_cons] at hp
    rcases hp with rfl | hp
    · omega
    · have := ih ho hp
      rw [← Instruction.length_of_encode hf] at this
      rw [List.length_append]
      omega

/-! ## Where offsets move to -/

/-- The position of the first placed instruction whose origin is at or behind `target`, or `stop` if
there is none. Placed instructions are given by origin and position. -/
def firstAtOrBehind (placed : List (Nat × Nat)) (stop : Nat) (target : Int) : Nat :=
  ((placed.find? fun entry => target ≤ entry.1).map (·.2)).getD stop

/-- The first item that is not in front of `target`, counted in the list of all items. -/
theorem getElem?_firstAtOrBehind {origins positions : List Nat} {stop : Nat}
    (hlength : positions.length = origins.length + 1) (hstop : positions[origins.length]? = some stop)
    (target : Nat) :
    positions[(origins.takeWhile (· < target)).length]? =
      some (firstAtOrBehind (origins.zip positions) stop target) := by
  induction origins generalizing positions with
  | nil => simpa [firstAtOrBehind] using hstop
  | cons origin origins ih =>
    cases positions with
    | nil => simp at hlength
    | cons position positions =>
      by_cases hlt : origin < target
      · have hle : ¬target ≤ origin := Nat.not_le.mpr hlt
        simp only [List.takeWhile_cons, hlt, decide_true, if_true, List.length_cons,
          List.getElem?_cons_succ]
        rw [ih (by simpa using hlength) (by simpa using hstop)]
        simp [firstAtOrBehind, hle]
      · have hle : target ≤ origin := Nat.not_lt.mp hlt
        simp [hlt, firstAtOrBehind, hle]

namespace Edit

/-- Entries of the table of first items that come neither from a group nor from the end. -/
theorem getElem?_firstItems_of_notMem {groups : List (Nat × List Emitted)} {target : Nat}
    (h : ∀ group ∈ groups, group.1 ≠ target) (count : Nat) {table : Array Nat}
    (hlt : target + 1 < table.size) :
    (firstItems groups count table)[target]? = table[target]? := by
  induction groups generalizing count table with
  | nil => exact Array.getElem?_setIfInBounds_ne (by omega)
  | cons head tail ih =>
    rw [firstItems, ih (fun group hg => h group (List.mem_cons_of_mem _ hg)) _ (by simpa using hlt)]
    exact Array.getElem?_setIfInBounds_ne (h head List.mem_cons_self)

/-- The table of first items counts the items in front of an offset. -/
theorem getElem?_firstItems {groups : List (Nat × List Emitted)} {target : Nat}
    (hpair : groups.Pairwise (fun a b => a.1 < b.1))
    (horigin : ∀ group ∈ groups, ∀ item ∈ group.2, item.origin = group.1)
    (hmem : target ∈ groups.map (·.1)) (count : Nat) {table : Array Nat}
    (hlt : target + 1 < table.size) :
    (firstItems groups count table)[target]? =
      some (count +
        (((groups.flatMap (·.2)).map (·.origin)).takeWhile (· < target)).length) := by
  induction groups generalizing count table with
  | nil => simp at hmem
  | cons head tail ih =>
    obtain ⟨offset, items⟩ := head
    rw [List.pairwise_cons] at hpair
    have horigin' : ∀ group ∈ tail, ∀ item ∈ group.2, item.origin = group.1 :=
      fun group hg => horigin group (List.mem_cons_of_mem _ hg)
    have hitems : ∀ item ∈ items, item.origin = offset :=
      horigin (offset, items) List.mem_cons_self
    rw [firstItems, List.flatMap_cons, List.map_append]
    rcases List.mem_cons.mp hmem with heq | hmem
    · simp only at heq
      subst heq
      have hfront : ∀ origin ∈ items.map (·.origin) ++ (tail.flatMap (·.2)).map (·.origin),
          target ≤ origin := by
        intro origin ho
        simp only [List.mem_append, List.mem_map, List.mem_flatMap] at ho
        rcases ho with ⟨item, hi, rfl⟩ | ⟨item, ⟨group, hg, hi⟩, rfl⟩
        · exact Nat.le_of_eq (hitems item hi).symm
        · rw [horigin' group hg item hi]
          exact Nat.le_of_lt (hpair.1 group hg)
      have hnone : (items.map (·.origin) ++ (tail.flatMap (·.2)).map (·.origin)).takeWhile
          (· < target) = [] := by
        rw [List.takeWhile_eq_nil_iff]
        intro hpos
        simpa using hfront _ (List.getElem_mem hpos)
      rw [hnone, getElem?_firstItems_of_notMem (fun group hg => Nat.ne_of_gt (hpair.1 group hg)) _
        (by simpa using hlt)]
      simp [show target < table.size by omega]
    · obtain ⟨group, hg, rfl⟩ := List.mem_map.mp hmem
      have hall : ∀ origin ∈ items.map (·.origin), decide (origin < group.1) = true := by
        intro origin ho
        obtain ⟨item, hi, rfl⟩ := List.mem_map.mp ho
        rw [hitems item hi]
        simpa using hpair.1 group hg
      rw [ih hpair.2 horigin' hmem _ (by simpa using hlt), List.takeWhile_append_of_pos hall]
      simp [Nat.add_assoc]

/-- The end of the body comes behind all items. -/
theorem getElem?_firstItems_end (groups : List (Nat × List Emitted)) (count : Nat)
    (table : Array Nat) (hpos : 0 < table.size) :
    (firstItems groups count table)[table.size - 1]? =
      some (count + (groups.flatMap (·.2)).length) := by
  induction groups generalizing count table with
  | nil => exact Array.getElem?_setIfInBounds_self_of_lt (by omega)
  | cons head tail ih =>
    have hrest := ih (count + head.2.length) (table.setIfInBounds head.1 count) (by simpa using hpos)
    rw [Array.size_setIfInBounds] at hrest
    rw [firstItems, hrest, List.flatMap_cons, List.length_append, Nat.add_assoc]

/-- What an edit emits for the instructions of a body, each with the offset that it is emitted for:
what is put in front, the replacement or the instruction itself, and what is put behind. -/
def emission (edit : Edit) (instructions : List (Nat × Instruction)) : List (Nat × Instruction) :=
  instructions.flatMap fun entry =>
    ((edit.site entry.1).emitted entry.2).map fun emitted => (entry.1, emitted)

/-- What an edit emits, in groups, as items that are to be placed. -/
def itemGroups (edit : Edit) (instructions : List (Nat × Instruction)) :
    List (Nat × List Emitted) :=
  instructions.map fun entry => (entry.1,
    ((edit.site entry.1).emitted entry.2).map fun emitted => ⟨entry.1, emitted.narrowed⟩)

theorem map_fst_itemGroups (edit : Edit) (instructions : List (Nat × Instruction)) :
    (edit.itemGroups instructions).map (·.1) = instructions.map (·.1) := by
  simp [itemGroups]

theorem origin_of_mem_itemGroups (edit : Edit) (instructions : List (Nat × Instruction)) :
    ∀ group ∈ edit.itemGroups instructions, ∀ item ∈ group.2, item.origin = group.1 := by
  intro group hg item hi
  obtain ⟨entry, -, rfl⟩ := List.mem_map.mp hg
  obtain ⟨emitted, -, rfl⟩ := List.mem_map.mp hi
  rfl

theorem flatMap_itemGroups (edit : Edit) (instructions : List (Nat × Instruction)) :
    (edit.itemGroups instructions).flatMap (·.2) =
      (edit.emission instructions).map fun entry => ⟨entry.1, entry.2.narrowed⟩ := by
  simp [itemGroups, emission, List.flatMap_map, List.map_flatMap, Function.comp_def]

/-- Whether the edit emits only instructions that can be read back. -/
def Writable (edit : Edit) : Prop :=
  ∀ entry ∈ edit.sites, ∀ instruction ∈
    entry.2.before ++ entry.2.replacement.getD [] ++ entry.2.after, instruction.Writable

/-- Whether an instruction of an edited body stands for an emitted one. Both come with an offset: the
one that the emitted instruction is attached to, and its position in the edited body. -/
structure Stands (placed : List (Nat × Nat)) (stop : Nat) (source result : Nat × Instruction) :
    Prop where
  /-- They agree apart from the width of a jump and of a constant load, and from displacements. -/
  form_eq : result.2.form = source.2.stored.form
  /-- Every displacement leads to the first instruction emitted at or behind its old target. -/
  targets : List.Forall₂ (fun old new : Int32 => (result.1 : Int) + new.toInt =
    firstAtOrBehind placed stop (source.1 + old.toInt)) source.2.displacements
    result.2.displacements

/-- A target is the sum of offset and displacement. -/
theorem target_eq_ok {offset target : Nat} {displacement : Int32}
    (h : Instruction.target offset displacement = .ok target) :
    (offset : Int) + displacement.toInt = target := by
  simp only [Instruction.target] at h
  split at h
  · cases h
  · cases h
    omega

theorem isBoundary_of_checkTargets {listing : Listing} {offset : Nat} {instruction : Instruction}
    (h : listing.checkTargets offset instruction = .ok ()) :
    ∀ displacement ∈ instruction.displacements, ∃ target,
      Instruction.target offset displacement = .ok target ∧ listing.isBoundary target = true := by
  obtain ⟨targets, ht, h⟩ := Except.bind_eq_ok.mp h
  have hall := forall₂_of_mapM ht
  have hok := ok_of_forM h
  intro displacement hd
  obtain ⟨index, hi, rfl⟩ := List.getElem_of_mem hd
  have hi' : index < targets.length := hall.length_eq ▸ hi
  refine ⟨targets[index], hall.get hi hi', ?_⟩
  have := hok _ (List.getElem_mem hi')
  split at this
  · assumption
  · cases this

/-- What the instructions emitted for one offset become in the placement. -/
theorem emitAt_eq_ok {edit : Edit} {listing : Listing} {offset : Nat} {instruction : Instruction}
    {items : List Emitted} (h : edit.emitAt listing offset instruction = .ok items) :
    items = ((edit.site offset).emitted instruction).map (fun i => ⟨offset, i.narrowed⟩) ∧
      ∀ emitted ∈ (edit.site offset).emitted instruction,
        listing.checkTargets offset emitted = .ok () := by
  have hall := forall₂_of_mapM h
  clear h
  generalize (edit.site offset).emitted instruction = instructions at hall
  induction hall with
  | nil => simp
  | cons hi _ ih =>
    obtain ⟨_, hc, hi⟩ := Except.bind_eq_ok.mp hi
    cases hi
    obtain ⟨rfl, hrest⟩ := ih
    refine ⟨rfl, fun emitted he => ?_⟩
    rcases List.mem_cons.mp he with rfl | he
    · exact hc
    · exact hrest emitted he

/-- **What an edit emits** are its groups of items, with all targets on boundaries. -/
theorem emit_eq_ok {edit : Edit} {listing : Listing} {groups : List (Nat × List Emitted)}
    (h : edit.emit listing = .ok groups) :
    groups = edit.itemGroups listing.instructions ∧
      ∀ entry ∈ edit.emission listing.instructions, ∀ displacement ∈ entry.2.displacements,
        ∃ target, Instruction.target entry.1 displacement = .ok target ∧
          listing.isBoundary target = true := by
  have hall := forall₂_of_mapM h
  clear h
  simp only [emission, itemGroups]
  generalize listing.instructions = instructions at hall
  induction hall with
  | nil => simp
  | cons hg _ ih =>
    obtain ⟨items, hi, hg⟩ := Except.bind_eq_ok.mp hg
    cases hg
    obtain ⟨rfl, hrest⟩ := ih
    obtain ⟨rfl, hcheck⟩ := emitAt_eq_ok hi
    refine ⟨rfl, fun entry he => ?_⟩
    rw [List.flatMap_cons, List.mem_append] at he
    rcases he with he | he
    · obtain ⟨emitted, hm, rfl⟩ := List.mem_map.mp he
      exact isBoundary_of_checkTargets (hcheck emitted hm)
    · exact hrest entry he

/-- The steps of applying an edit: the body is read, what is emitted is placed and encoded, the
tables move along, and there are heights of the stack for the edited body. -/
structure Applies (edit : Edit) (code : Code) (pool : ConstantPool) (edited : Code)
    (listing : Listing) (groups : List (Nat × List Emitted)) (placement : Placement) : Prop where
  reads : Listing.ofCode code.bytes = .ok listing
  emits : edit.emit listing = .ok groups
  places : Placement.ofEmitted (groups.flatMap (·.2))
    (firstItems groups 0 (Array.replicate (listing.size + 1) 0)) = .ok placement
  encodes : placement.encode = .ok edited.bytes
  maxLocals : edited.maxLocals = code.maxLocals
  handlers : filterMapE (moveHandler placement listing edited.size)
    (withoutIndices edit.removedHandlers code.handlers) = .ok edited.handlers
  lines : filterMapE (moveLine placement listing edited.size) code.lines = .ok edited.lines
  localRanges : filterMapE (moveVariable placement listing) code.localRanges =
    .ok edited.localRanges
  heights : ∃ heights, stackHeights edited pool = .ok heights

theorem applies_of_apply {edit : Edit} {code edited : Code} {pool : ConstantPool}
    (h : edit.apply code pool = .ok edited) :
    ∃ listing groups placement, edit.Applies code pool edited listing groups placement := by
  unfold apply at h
  split at h
  · cases h
  · obtain ⟨listing, hl, h⟩ := Except.bind_eq_ok.mp h
    obtain ⟨_, -, h⟩ := Except.bind_eq_ok.mp h
    obtain ⟨groups, hg, h⟩ := Except.bind_eq_ok.mp h
    obtain ⟨placement, hp, h⟩ := Except.bind_eq_ok.mp h
    obtain ⟨bytes, hb, h⟩ := Except.bind_eq_ok.mp h
    obtain ⟨handlers, hhandlers, h⟩ := Except.bind_eq_ok.mp h
    obtain ⟨lines, hlines, h⟩ := Except.bind_eq_ok.mp h
    obtain ⟨ranges, hranges, h⟩ := Except.bind_eq_ok.mp h
    obtain ⟨height, hheight, h⟩ := Except.bind_eq_ok.mp h
    cases h
    obtain ⟨_, -, hheight⟩ := Except.bind_eq_ok.mp hheight
    obtain ⟨heights, hheights, -⟩ := Except.bind_eq_ok.mp hheight
    exact ⟨listing, groups, placement, hl, hg, hp, hb, rfl, hhandlers, hlines, hranges, heights,
      hheights⟩

/-- The steps of applying an edit, the tables of the body apart. -/
theorem apply_eq_ok {edit : Edit} {code edited : Code} {pool : ConstantPool}
    (h : edit.apply code pool = .ok edited) :
    ∃ listing groups placement, Listing.ofCode code.bytes = .ok listing ∧
      edit.emit listing = .ok groups ∧
      Placement.ofEmitted (groups.flatMap (·.2))
        (firstItems groups 0 (Array.replicate (listing.size + 1) 0)) = .ok placement ∧
      placement.encode = .ok edited.bytes ∧ edited.maxLocals = code.maxLocals := by
  obtain ⟨listing, groups, placement, h⟩ := applies_of_apply h
  exact ⟨listing, groups, placement, h.reads, h.emits, h.places, h.encodes, h.maxLocals⟩

/-- The instructions that an edit emits are well formed. -/
theorem wellFormed_of_mem_emission {edit : Edit} (hw : edit.Writable) {code : List UInt8}
    {instructions : List (Nat × Instruction)} (h : decodeAll code = .ok instructions) :
    ∀ entry ∈ edit.emission instructions, entry.2.WellFormed := by
  intro entry he
  simp only [emission, List.mem_flatMap, List.mem_map] at he
  obtain ⟨⟨offset, instruction⟩, hmem, emitted, he, rfl⟩ := he
  have hself : instruction.WellFormed := wellFormed_of_decodeAll h (offset, instruction) hmem
  simp only [site] at he
  cases hs : edit.sites.lookup offset with
  | none =>
    rw [hs] at he
    simp only [Option.getD_none, SiteEdit.emitted_keep, List.mem_singleton] at he
    subst he
    exact hself
  | some site =>
    rw [hs] at he
    have hin : (offset, site) ∈ edit.sites := mem_of_lookup_eq_some hs
    have hsite := hw _ hin
    simp only [Option.getD_some, SiteEdit.emitted, List.mem_append] at he
    simp only [List.mem_append] at hsite
    rcases he with (he | he) | he
    · exact (hsite emitted (.inl (.inl he))).wellFormed
    · cases hr : site.replacement with
      | none =>
        rw [hr] at he
        simp only [Option.getD_none, List.mem_singleton] at he
        subst he
        exact hself
      | some replacement =>
        rw [hr] at he hsite
        exact (hsite emitted (.inl (.inr he))).wellFormed
    · exact (hsite emitted (.inr he)).wellFormed

/-- Relations between emitted instructions, placed items and relocated instructions, in step. -/
theorem forall₂_zip_offsets {α β γ δ : Type} {P : α → β → Prop} {Q : β × Nat → γ → Prop}
    {S : α → Nat × δ → Prop} {f : γ → δ} {as : List α} {bs : List β} {positions : List Nat}
    {cs : List γ} (hlength : bs.length ≤ positions.length) (hab : List.Forall₂ P as bs)
    (hbc : List.Forall₂ Q (bs.zip positions) cs)
    (h : ∀ a b position c, position ∈ positions → P a b → Q (b, position) c →
      S a (position, f c)) : List.Forall₂ S as (positions.zip (cs.map f)) := by
  induction hab generalizing positions cs with
  | nil =>
    cases hbc
    simp
  | cons ha _ ih =>
    cases positions with
    | nil => simp at hlength
    | cons position positions =>
      rw [List.zip_cons_cons] at hbc
      cases hbc with
      | cons hc hbc =>
        rw [List.map_cons, List.zip_cons_cons]
        exact .cons (h _ _ _ _ List.mem_cons_self ha hc) (ih (by simpa using hlength) hbc
          fun a b p c hp => h a b p c (List.mem_cons_of_mem _ hp))

/-- The table of first items and the positions send a boundary to the first instruction emitted at
or behind it. -/
theorem newOffset_eq_ok {edit : Edit} {code : List UInt8} {listing : Listing}
    (hl : Listing.ofCode code = .ok listing) {settled : List Emitted}
    (horigins : settled.map (·.origin) = (edit.emission listing.instructions).map (·.1))
    {stop target position : Nat}
    (hstop : (offsetsFrom 0 (settled.map (·.instruction)))[settled.length]? = some stop)
    (ht : listing.isEdge target = true)
    (h : (Placement.place settled (firstItems (edit.itemGroups listing.instructions) 0
      (Array.replicate (listing.size + 1) 0))).newOffset target = .ok position) :
    position = firstAtOrBehind (((edit.emission listing.instructions).map (·.1)).zip
      (offsetsFrom 0 (settled.map (·.instruction)))) stop target := by
  have hfirst : (firstItems (edit.itemGroups listing.instructions) 0
      (Array.replicate (listing.size + 1) 0))[target]? =
      some (((edit.emission listing.instructions).map (·.1)).takeWhile (· < target)).length := by
    rw [Listing.isEdge, Bool.or_eq_true, decide_eq_true_eq] at ht
    obtain ⟨hd, -⟩ := Listing.ofCode_eq_ok hl
    have hlt (entry : Nat × Instruction) (hmem : entry ∈ listing.instructions) :
        entry.1 < listing.size := by
      rw [Listing.size_of_ofCode hl]
      exact lt_of_decodeAll hd _ hmem
    rcases ht with rfl | ht
    · have hlast := getElem?_firstItems_end (edit.itemGroups listing.instructions) 0
        (Array.replicate (listing.size + 1) 0) (by simp)
      have hall : ∀ origin ∈ (edit.emission listing.instructions).map (·.1),
          decide (origin < listing.size) = true := by
        intro origin horigin
        obtain ⟨_, he, rfl⟩ := List.mem_map.mp horigin
        obtain ⟨entry, hmem, he⟩ := List.mem_flatMap.mp he
        obtain ⟨_, -, rfl⟩ := List.mem_map.mp he
        exact decide_eq_true (hlt entry hmem)
      rw [List.takeWhile_eq_self_iff.mpr hall, List.length_map]
      simpa [flatMap_itemGroups] using hlast
    · obtain ⟨instruction, hmem⟩ := (Listing.isBoundary_iff hl).mp ht
      have hpair : (edit.itemGroups listing.instructions).Pairwise (fun a b => a.1 < b.1) :=
        List.pairwise_map.mpr (ascending_of_decodeAll hd)
      have hgroup : target ∈ (edit.itemGroups listing.instructions).map (·.1) := by
        rw [map_fst_itemGroups]
        exact List.mem_map.mpr ⟨_, hmem, rfl⟩
      have hsize : target + 1 < (Array.replicate (listing.size + 1) 0).size := by
        simpa using hlt _ hmem
      have hfirst := getElem?_firstItems hpair (origin_of_mem_itemGroups edit _) hgroup 0 hsize
      rwa [flatMap_itemGroups, List.map_map, Nat.zero_add] at hfirst
  have hlength : (offsetsFrom 0 (settled.map (·.instruction))).length =
      ((edit.emission listing.instructions).map (·.1)).length + 1 := by
    rw [length_offsetsFrom, ← horigins, List.length_map, List.length_map]
  have hat := getElem?_firstAtOrBehind hlength (by
    rw [← horigins, List.length_map]
    exact hstop) target
  rw [Placement.newOffset, orFail_eq_ok] at h
  simp only [Placement.place, hfirst, Option.bind_eq_bind, Option.bind_some,
    List.getElem?_toArray] at h
  exact Option.some.inj (h.symm.trans hat)

/-- A distance inside a body of less than 2 GiB is a displacement. -/
theorem toInt_ofInt_distance {size target position : Nat} (hsize : size < 2 ^ 31)
    (ht : target ≤ size) (hp : position ≤ size) :
    (Int32.ofInt ((target : Int) - position)).toInt = (target : Int) - position := by
  apply Int32.toInt_ofInt_of_le <;> omega

theorem mem_positions_of_newOffset {items : List Emitted} {firstItem : Array Nat}
    {target moved : Nat} (h : (Placement.place items firstItem).newOffset target = .ok moved) :
    moved ∈ offsetsFrom 0 (items.map (·.instruction)) := by
  rw [Placement.newOffset, orFail_eq_ok] at h
  obtain ⟨index, -, h⟩ := Option.bind_eq_some_iff.mp h
  simp only [Placement.place, List.getElem?_toArray] at h
  exact List.mem_of_getElem? h

/-- Pairing with the first parts of pairs, of which there are enough. -/
theorem zip_map_fst_zip {α β γ : Type} {as : List α} {bs : List β} {cs : List γ}
    (h : as.length ≤ cs.length) : as.zip ((bs.zip cs).map (·.1)) = as.zip bs := by
  induction as generalizing bs cs with
  | nil => rfl
  | cons a as ih =>
    cases cs with
    | nil => simp at h
    | cons c cs =>
      cases bs with
      | nil => rfl
      | cons b bs => simp [ih (by simpa using h)]

/-- A relocated item stands for the instruction that it was emitted for. -/
theorem stands_of_relocate {placement : Placement} {source : Nat × Instruction} {item : Emitted}
    {position size : Nat} {instruction : Instruction} {placed : List (Nat × Nat)}
    (hsize : size < 2 ^ 31) (hitem : Emitted.Widens ⟨source.1, source.2.narrowed⟩ item)
    (h : placement.relocate item position = .ok instruction) (hp : position ≤ size)
    (htargets : ∀ displacement ∈ source.2.displacements, ∃ target,
      Instruction.target source.1 displacement = .ok target ∧
        ∀ moved, placement.newOffset target = .ok moved →
          moved ≤ size ∧ moved = firstAtOrBehind placed size target) :
    Stands placed size source (position, instruction.stored) := by
  obtain ⟨hsame, hdisplacements⟩ := Instruction.mapDisplacementsM_eq_ok h
  have hnarrowed : item.instruction.narrowed = source.2.narrowed := by
    simpa using hitem.narrowed_eq
  constructor
  · rw [hsame.form_stored_eq, Instruction.form, Instruction.form, ← Instruction.stored_narrowed,
      hnarrowed, Instruction.stored_narrowed]
  · rw [Instruction.displacements_stored]
    rw [← Instruction.displacements_narrowed, hnarrowed, Instruction.displacements_narrowed]
      at hdisplacements
    refine ((List.forall₂_and_left _ _).mpr ⟨htargets, hdisplacements⟩).imp ?_
    rintro old new ⟨⟨target, ht, hmoved⟩, hnew⟩
    have horigin : item.origin = source.1 := hitem.origin_eq
    obtain ⟨target', ht', hnew⟩ := Except.bind_eq_ok.mp hnew
    rw [horigin, ht] at ht'
    cases ht'
    obtain ⟨moved, hm, hnew⟩ := Except.bind_eq_ok.mp hnew
    cases hnew
    obtain ⟨hle, rfl⟩ := hmoved moved hm
    rw [toInt_ofInt_distance hsize hle hp, target_eq_ok ht]
    omega

/-- The items that are placed and the instructions that they become. Items are emitted instructions,
some of them widened, and relocating them gives the edited body. -/
structure Relocates (edit : Edit) (edited : Code) (listing : Listing) (placement : Placement)
    (settled : List Emitted) (relocated : List Instruction) : Prop where
  widens : List.Forall₂ (fun entry item => Emitted.Widens ⟨entry.1, entry.2.narrowed⟩ item)
    (edit.emission listing.instructions) settled
  encodes : Instruction.encodeFrom 0 relocated = .ok edited.bytes
  positions : offsetsFrom 0 relocated = offsetsFrom 0 (settled.map (·.instruction))
  relocates : List.Forall₂ (fun (pair : Emitted × Nat) instruction =>
    placement.relocate pair.1 pair.2 = .ok instruction)
    (settled.zip (offsetsFrom 0 relocated)) relocated
  newOffset : ∀ target position, listing.isEdge target = true →
    placement.newOffset target = .ok position →
    position ∈ offsetsFrom 0 relocated ∧ position = firstAtOrBehind
      (((edit.emission listing.instructions).map (·.1)).zip (offsetsFrom 0 relocated)) edited.size
      target

theorem Applies.relocates {edit : Edit} {code edited : Code} {pool : ConstantPool}
    {listing : Listing} {groups : List (Nat × List Emitted)} {placement : Placement}
    (h : edit.Applies code pool edited listing groups placement) :
    ∃ settled relocated, edit.Relocates edited listing placement settled relocated := by
  obtain ⟨rfl, -⟩ := emit_eq_ok h.emits
  obtain ⟨settled, rfl, hsettled⟩ := Placement.settle_eq_ok h.places
  obtain ⟨parts, hparts, hflat⟩ := Except.bind_eq_ok.mp h.encodes
  have hbytes : edited.bytes = parts.flatten := (Except.ok.inj hflat).symm
  rw [flatMap_itemGroups, List.forall₂_map_left_iff] at hsettled
  simp only [Placement.place, List.toList_toArray] at hparts
  obtain ⟨relocated, he, hoffsets, hrelocated⟩ :=
    @encodeFrom_of_parts Emitted (·.instruction) (Placement.relocate _) settled
      (fun _ _ _ _ => Placement.length_of_relocate) 0 parts (forall₂_of_mapM hparts)
  have hlength : relocated.length = settled.length := by
    have := congrArg List.length hoffsets
    simpa [length_offsetsFrom] using this
  have horigins : settled.map (·.origin) = (edit.emission listing.instructions).map (·.1) := by
    rw [eq_comm, ← List.forall₂_eq_eq_eq, List.forall₂_map_left_iff, List.forall₂_map_right_iff]
    exact hsettled.imp fun _ _ hi => hi.origin_eq.symm
  have hstop := getElem?_offsetsFrom_length he
  rw [hoffsets, hlength, Nat.zero_add, ← hbytes] at hstop
  refine ⟨settled, relocated, hsettled, hbytes ▸ he, hoffsets, hrelocated,
    fun target position ht hm => ?_⟩
  rw [hoffsets]
  exact ⟨mem_positions_of_newOffset hm, newOffset_eq_ok h.reads horigins hstop ht hm⟩

namespace Relocates

variable {edit : Edit} {edited : Code} {listing : Listing} {placement : Placement}
  {settled : List Emitted} {relocated : List Instruction}

theorem length_settled_le (h : edit.Relocates edited listing placement settled relocated) :
    settled.length ≤ (offsetsFrom 0 relocated).length := by
  rw [h.positions, length_offsetsFrom, List.length_map]
  exact Nat.le_succ _

/-- The instructions of an edited body have the forms that are emitted, and are well formed if those
are. -/
theorem forms (h : edit.Relocates edited listing placement settled relocated) :
    List.Forall₂ (fun source instruction =>
      instruction.form = source.2.form ∧ (source.2.WellFormed → instruction.WellFormed))
      (edit.emission listing.instructions) relocated := by
  have hsame : List.Forall₂ (fun (item : Emitted) instruction =>
      instruction.SameButDisplacements item.instruction) settled relocated := by
    rw [← List.map_fst_zip h.length_settled_le, List.forall₂_map_left_iff]
    exact h.relocates.imp fun _ _ hrelocate =>
      (Instruction.mapDisplacementsM_eq_ok hrelocate).1
  refine forall₂_comp (fun source item instruction hitem hsame => ⟨?_, fun hwf => ?_⟩) h.widens
    hsame
  · have hnarrowed : item.instruction.narrowed = source.2.narrowed := by
      simpa using hitem.narrowed_eq
    rw [hsame.form_eq, Instruction.form, Instruction.form, hnarrowed]
  · exact hsame.wellFormed_iff.mpr (hitem.wellFormed hwf.narrowed)

/-- If an edit emits well-formed instructions, those of the edited body are well formed. -/
theorem wellFormed (h : edit.Relocates edited listing placement settled relocated)
    (hw : ∀ entry ∈ edit.emission listing.instructions, entry.2.WellFormed) :
    ∀ instruction ∈ relocated, instruction.WellFormed :=
  forall_mem_of_forall₂ (((List.forall₂_and_left _ _).mpr ⟨hw, h.forms⟩).imp
    fun _ _ hboth => hboth.2.2 hboth.1)

end Relocates

/-- The instructions of an edited body stand for what was emitted in their places. -/
theorem Applies.stands {edit : Edit} {code edited : Code} {pool : ConstantPool}
    {listing : Listing} {groups : List (Nat × List Emitted)} {placement : Placement}
    {settled : List Emitted} {relocated : List Instruction}
    (h : edit.Applies code pool edited listing groups placement)
    (hr : edit.Relocates edited listing placement settled relocated)
    (hsize : edited.size < 2 ^ 31) :
    List.Forall₂
      (Stands (((edit.emission listing.instructions).map (·.1)).zip (offsetsFrom 0 relocated))
        edited.size) (edit.emission listing.instructions)
      ((offsetsFrom 0 relocated).zip (relocated.map Instruction.stored)) := by
  have hle : ∀ position ∈ offsetsFrom 0 relocated, position ≤ edited.size := by
    intro position hp
    have := le_of_mem_offsetsFrom hr.encodes hp
    rwa [Nat.zero_add] at this
  refine forall₂_zip_offsets hr.length_settled_le
    ((List.forall₂_and_left _ _).mpr ⟨(emit_eq_ok h.emits).2, hr.widens⟩) hr.relocates ?_
  intro source item position instruction hposition ⟨htargets, hitem⟩ hrelocate
  refine stands_of_relocate hsize hitem hrelocate (hle position hposition) ?_
  intro displacement hmem
  obtain ⟨target, ht, htb⟩ := htargets displacement hmem
  refine ⟨target, ht, fun moved hm => ?_⟩
  obtain ⟨hposition, hfirst⟩ := hr.newOffset target moved
    (by rw [Listing.isEdge, htb, Bool.or_true]) hm
  exact ⟨hle moved hposition, hfirst⟩

/-- The instructions of an edited body lie one after another, each standing for what was emitted in
its place. -/
theorem relocated_of_apply {edit : Edit} {code edited : Code} {pool : ConstantPool}
    {original : List (Nat × Instruction)} (h : edit.apply code pool = .ok edited)
    (hsize : edited.size < 2 ^ 31) (hd : decodeAll code.bytes = .ok original)
    (hw : ∀ entry ∈ edit.emission original, entry.2.WellFormed) :
    ∃ relocated, (∀ instruction ∈ relocated, instruction.WellFormed) ∧
      Instruction.encodeFrom 0 relocated = .ok edited.bytes ∧
      List.Forall₂
        (Stands (((edit.emission original).map (·.1)).zip (offsetsFrom 0 relocated)) edited.size)
        (edit.emission original)
        ((offsetsFrom 0 relocated).zip (relocated.map Instruction.stored)) := by
  obtain ⟨listing, groups, placement, happlies⟩ := applies_of_apply h
  obtain ⟨settled, relocated, hr⟩ := happlies.relocates
  cases hd.symm.trans (Listing.ofCode_eq_ok happlies.reads).1
  exact ⟨relocated, hr.wellFormed hw, hr.encodes, happlies.stands hr hsize⟩

/-- **An edited body decodes to what the edit emits**: for every instruction in order what is put in
front of it, its replacement or itself, and what is put behind it, with every displacement leading to
the first instruction emitted at or behind its old target. -/
theorem decodeAll_apply {edit : Edit} {code edited : Code} {pool : ConstantPool}
    (h : edit.apply code pool = .ok edited) (hw : edit.Writable) (hsize : edited.size < 2 ^ 31) :
    ∃ original decoded, decodeAll code.bytes = .ok original ∧
      decodeAll edited.bytes = .ok decoded ∧
      List.Forall₂
        (Stands (((edit.emission original).map (·.1)).zip (decoded.map (·.1))) edited.size)
        (edit.emission original) decoded := by
  obtain ⟨listing, groups, placement, hl, -⟩ := apply_eq_ok h
  obtain ⟨hd, -⟩ := Listing.ofCode_eq_ok hl
  obtain ⟨relocated, hwf, he, hstands⟩ :=
    relocated_of_apply h hsize hd (wellFormed_of_mem_emission hw hd)
  refine ⟨listing.instructions, _, hd, decodeAll_encodeFrom hwf he, ?_⟩
  have hlength := hstands.length_eq
  rw [List.length_zip, length_offsetsFrom, List.length_map] at hlength
  rwa [zip_map_fst_zip (by rw [List.length_map, List.length_map]; omega)]

/-- Replaces the one-byte instruction that a branch jumps over by a constant load whose index needs
two bytes, and a pop. -/
def widenGap : Edit :=
  ⟨6, [(4, ⟨[], some [⟨Opcode.ldc, .constant 300⟩, .simple Opcode.pop], []⟩)], []⟩

/-- The branch grows by the three bytes that are inserted. -/
theorem decodeAll_apply_widenGap :
    widenGap.apply ⟨1, 0, [0x03, 0x99, 0, 4, 0, 0xB1], [], [], []⟩ ⟨#[none]⟩ =
        .ok ⟨1, 0, [0x03, 0x99, 0, 7, 0x13, 1, 44, 0x57, 0xB1], [], [], []⟩ ∧
      ∃ original decoded, decodeAll [0x03, 0x99, 0, 4, 0, 0xB1] = .ok original ∧
        decodeAll [0x03, 0x99, 0, 7, 0x13, 1, 44, 0x57, 0xB1] = .ok decoded ∧
        List.Forall₂ (Stands (((widenGap.emission original).map (·.1)).zip (decoded.map (·.1))) 9)
          (widenGap.emission original) decoded := by
  have happly : widenGap.apply ⟨1, 0, [0x03, 0x99, 0, 4, 0, 0xB1], [], [], []⟩ ⟨#[none]⟩ =
      .ok ⟨1, 0, [0x03, 0x99, 0, 7, 0x13, 1, 44, 0x57, 0xB1], [], [], []⟩ := by decide +kernel
  have hpop : (Instruction.simple Opcode.pop).Decodable := ⟨[0x57], 0, by decide +kernel⟩
  have hwritable : widenGap.Writable := by
    simp only [Writable, widenGap, forall_eq, Option.getD_some, List.nil_append,
      List.append_nil, List.mem_cons, List.not_mem_nil, or_false, forall_eq_or_imp]
    exact ⟨.inr ⟨300, rfl⟩, .inl hpop⟩
  have hdecoded := decodeAll_apply happly hwritable (by decide)
  exact ⟨happly, hdecoded⟩

end Edit

end JvmTrim
