import JvmTrim.Evaluation.Fixpoint
import JvmTrim.Proofs.FrameAccess
import JvmTrim.Proofs.Sets

/-!
# What a join keeps

A frame covers another one if joining the other one into it changes nothing. A join covers both of
its sides, and it goes on to cover whatever its first side covered: this is why a frame that only
ever grows by joins never loses what was once merged into it. Covering is a matter of single slots:
every slot of the upper frame has a counterpart below, with a value it absorbs and producers it
contains.

## Main definitions

* `Slot.Covers`, `Frame.Covers`: a join that changes nothing

## Main results

* `Value.Covers.join`, `Frame.covers_joinAt`: a join covers what its sides covered
* `Frame.covers_iff`: covering slot by slot
-/

namespace JvmTrim

/-! ## Values -/

namespace Abstract

variable {α : Type} [DecidableEq α]

theorem join_eq_left_iff {a b : Abstract α} : a.join b = a ↔ a = unknown ∨ a = b := by
  rw [join]
  split
  · rename_i h
    simp [h]
  · rename_i h
    simp [h, eq_comm]

theorem join_join_of_join_eq_left {a b : Abstract α} (h : a.join b = a) (c : Abstract α) :
    (a.join c).join b = a.join c := by
  grind [join]

theorem join_join_right (a b : Abstract α) : (a.join b).join b = a.join b := by
  grind [join]

end Abstract

namespace Reference

theorem join_join_of_join_eq_left {a b : Reference} (h : a.join b = a) (c : Reference) :
    (a.join c).join b = a.join c := by
  cases a <;> cases b <;> cases c <;> grind [join, isNotNull]

theorem join_join_right (a b : Reference) : (a.join b).join b = a.join b := by
  cases a <;> cases b <;> grind [join, isNotNull]

end Reference

namespace Value

/-- Whether joining `below` into `above` changes nothing. -/
def Covers (above below : Value) : Prop := above.join below = above

theorem covers_refl (a : Value) : a.Covers a := by
  cases a <;> simp [Covers, join, Abstract.join, Reference.join, OrderedSet.union_self]

theorem covers_top (a : Value) : top.Covers a := by
  cases a <;> rfl

/-- A join covers what its first side covered. -/
theorem Covers.join {a b : Value} (h : a.Covers b) (c : Value) : (a.join c).Covers b := by
  cases a <;> cases c <;> first | exact covers_top b | skip
  all_goals
    cases b <;> simp only [Covers, Value.join, reduceCtorEq, int.injEq, long.injEq, float.injEq,
      double.injEq, reference.injEq, returnAddress.injEq] at h ⊢
  · exact Abstract.join_join_of_join_eq_left h _
  · exact Abstract.join_join_of_join_eq_left h _
  · exact Abstract.join_join_of_join_eq_left h _
  · exact Abstract.join_join_of_join_eq_left h _
  · exact Reference.join_join_of_join_eq_left h _
  · exact OrderedSet.union_union_of_union_eq_left h _

theorem covers_join_right (a b : Value) : (a.join b).Covers b := by
  cases a <;> cases b <;> simp [Covers, Value.join, Abstract.join_join_right,
    Reference.join_join_right, OrderedSet.union_union_right]

end Value

/-! ## What is known of a value is known of all that it covers -/

namespace Reference

variable {above below : Reference} (h : above.join below = above)

include h

theorem eq_specific_of_join_eq_left {symbol : Symbol} {notNull : Bool}
    (hs : above = specific symbol notNull) : ∃ notNull', below = specific symbol notNull' := by
  subst hs
  cases below <;> grind [join]

theorem isNotNull_of_join_eq_left (hn : above.isNotNull = true) : below.isNotNull = true := by
  cases above <;> cases below <;> grind [join, isNotNull]

end Reference

namespace Value.Covers

variable {above below : Value} (h : above.Covers below)

include h

theorem kind? {kind : Kind} (hk : above.kind? = some kind) : below.kind? = some kind := by
  have habsorbs : above.join below = above := h
  cases above <;> cases hk <;> cases below <;> first | rfl | cases habsorbs

theorem int? {number : Int32} (hn : above.int? = some number) : below.int? = some number := by
  cases above <;> cases below <;>
    grind [Covers, Value.join, Value.int?, Abstract.join, Abstract.particular?]

theorem symbol? {symbol : Symbol} (hs : above.symbol? = some symbol) :
    below.symbol? = some symbol ∧ below.kind? = above.kind? := by
  cases above
  case reference a =>
    cases below <;> try cases h
    case reference b =>
      cases a
      case specific =>
        obtain ⟨_, rfl⟩ := Reference.eq_specific_of_join_eq_left (Value.reference.inj h) rfl
        exact ⟨hs, rfl⟩
      all_goals cases hs
  all_goals
    cases below <;> grind [Covers, Value.join, Value.symbol?, Value.kind?, Abstract.join,
      Abstract.symbol?]

theorem isNull (hn : above.isNull = true) : below.isNull = true := by
  cases above <;> cases below <;>
    grind [Covers, Value.join, Value.isNull, Reference.join, Reference.isNotNull]

theorem isNotNull (hn : above.isNotNull = true) : below.isNotNull = true := by
  cases above
  case reference a =>
    cases below <;> try cases h
    exact Reference.isNotNull_of_join_eq_left (Value.reference.inj h) hn
  all_goals cases hn

end Value.Covers

/-! ## Slots and frames -/

namespace Slot

/-- Whether joining `below` into `above` changes nothing. -/
def Covers (above below : Slot) : Prop := above.join below = above

theorem covers_iff {above below : Slot} : above.Covers below ↔
    above.value.Covers below.value ∧
      ∀ x, below.producers.contains x = true → above.producers.contains x = true := by
  rw [← OrderedSet.union_eq_left_iff]
  obtain ⟨value, producers⟩ := above
  simp only [Covers, join, Value.Covers, Slot.mk.injEq]

theorem covers_refl (slot : Slot) : slot.Covers slot :=
  covers_iff.mpr ⟨slot.value.covers_refl, fun _ h => h⟩

/-- A join covers what its first side covered. -/
theorem Covers.join {a b : Slot} (h : a.Covers b) (c : Slot) : (a.join c).Covers b := by
  obtain ⟨hv, hp⟩ := covers_iff.mp h
  exact covers_iff.mpr ⟨hv.join c.value, fun x hx => OrderedSet.contains_union.mpr (.inl (hp x hx))⟩

theorem covers_join_right (a b : Slot) : (a.join b).Covers b :=
  covers_iff.mpr ⟨Value.covers_join_right a.value b.value,
    fun _ hx => OrderedSet.contains_union.mpr (.inr hx)⟩

end Slot

/-- A pairing of two arrays that leaves the first one as it is. -/
theorem zipWith_eq_left_iff {α β : Type} {f : α → β → α} {as : Array α} {bs : Array β} :
    as.zipWith f bs = as ↔
      ∀ (i : Nat) (a : α), as[i]? = some a → ∃ b, bs[i]? = some b ∧ f a b = a := by
  constructor
  · intro h i a ha
    have hi := congrArg (·[i]?) h
    simp only [Array.getElem?_zipWith, ha] at hi
    cases hb : bs[i]? with
    | none => simp [hb] at hi
    | some b => exact ⟨b, rfl, by simpa [hb] using hi⟩
  · intro h
    apply Array.ext_getElem?
    intro i
    rw [Array.getElem?_zipWith]
    cases ha : as[i]? with
    | none => rfl
    | some a =>
      obtain ⟨b, hb, hab⟩ := h i a ha
      simp [hb, hab]

namespace Frame

/-- Whether joining `below` into `above` changes nothing. -/
structure Covers (above below : Frame) : Prop where
  height_eq : above.stack.height = below.stack.height
  slot : ∀ (i : Nat) (a : Slot), above.locals.slots[i]? = some a →
    ∃ b, below.locals.slots[i]? = some b ∧ a.Covers b
  word : ∀ (i : Nat) (a : Slot), above.stack.words[i]? = some a →
    ∃ b, below.stack.words[i]? = some b ∧ a.Covers b

variable {above below : Frame} {offset : Nat}

theorem joinAt_eq_ok_iff {old new joined : Frame} :
    old.joinAt offset new = .ok joined ↔ old.stack.height = new.stack.height ∧
      joined = ⟨old.locals.join new.locals, ⟨old.stack.words.zipWith Slot.join new.stack.words⟩⟩ := by
  rw [joinAt, Stack.join]
  split
  · rename_i stack h
    split at h
    · cases h
      simp [*, eq_comm]
    · cases h
  · rename_i h
    split at h
    · cases h
    · simp [*, defect]

/-- **Covering is a join that changes nothing.** -/
theorem covers_iff : above.Covers below ↔ above.joinAt offset below = .ok above := by
  rw [joinAt_eq_ok_iff]
  constructor
  · intro h
    refine ⟨h.height_eq, ?_⟩
    rw [Locals.join, zipWith_eq_left_iff.mpr h.slot, zipWith_eq_left_iff.mpr h.word]
  · rintro ⟨hh, h⟩
    have hl : above.locals.slots.zipWith Slot.join below.locals.slots = above.locals.slots :=
      (congrArg (·.locals.slots) h).symm
    have hs : above.stack.words.zipWith Slot.join below.stack.words = above.stack.words :=
      (congrArg (·.stack.words) h).symm
    exact ⟨hh, zipWith_eq_left_iff.mp hl, zipWith_eq_left_iff.mp hs⟩

theorem covers_refl (frame : Frame) : frame.Covers frame :=
  ⟨rfl, fun _ a h => ⟨a, h, a.covers_refl⟩, fun _ a h => ⟨a, h, a.covers_refl⟩⟩

/-- Covering, read from the top of the stacks. -/
theorem Covers.view (h : above.Covers below) :
    List.Forall₂ Slot.Covers above.stack.view below.stack.view := by
  refine List.forall₂_reverse_iff.mpr (List.forall₂_iff_get.mpr ⟨h.height_eq, fun i hi hi' => ?_⟩)
  have ha : above.stack.words[i]? = some (above.stack.words.toList.get ⟨i, hi⟩) := by
    simp [Array.getElem?_eq_getElem (by simpa using hi : i < above.stack.words.size)]
  obtain ⟨b, hb, hc⟩ := h.word i _ ha
  rw [Array.getElem?_eq_getElem (by simpa using hi')] at hb
  cases hb
  simpa using hc

/-- **A join covers its second side**, and all that its first side covered. -/
theorem covers_joinAt {old new joined : Frame} (h : old.joinAt offset new = .ok joined) :
    joined.Covers new ∧ ∀ frame, old.Covers frame → joined.Covers frame := by
  obtain ⟨hh, rfl⟩ := joinAt_eq_ok_iff.mp h
  have hheight : (old.stack.words.zipWith Slot.join new.stack.words).size = old.stack.height := by
    rw [Array.size_zipWith]
    exact Nat.min_eq_left (Nat.le_of_eq hh)
  have hjoined {as bs : Array Slot} {i : Nat} {a : Slot}
      (ha : (as.zipWith Slot.join bs)[i]? = some a) :
      ∃ x y, as[i]? = some x ∧ bs[i]? = some y ∧ a = x.join y := by
    rw [Array.getElem?_zipWith_eq_some] at ha
    obtain ⟨x, y, hx, hy, rfl⟩ := ha
    exact ⟨x, y, hx, hy, rfl⟩
  refine ⟨⟨hheight.trans hh, ?_, ?_⟩, fun frame hf => ⟨hheight.trans hf.height_eq, ?_, ?_⟩⟩
  · intro i a ha
    obtain ⟨x, y, -, hy, rfl⟩ := hjoined ha
    exact ⟨y, hy, Slot.covers_join_right x y⟩
  · intro i a ha
    obtain ⟨x, y, -, hy, rfl⟩ := hjoined ha
    exact ⟨y, hy, Slot.covers_join_right x y⟩
  · intro i a ha
    obtain ⟨x, y, hx, -, rfl⟩ := hjoined ha
    obtain ⟨b, hb, hc⟩ := hf.slot i x hx
    exact ⟨b, hb, hc.join y⟩
  · intro i a ha
    obtain ⟨x, y, hx, -, rfl⟩ := hjoined ha
    obtain ⟨b, hb, hc⟩ := hf.word i x hx
    exact ⟨b, hb, hc.join y⟩

end Frame

end JvmTrim
