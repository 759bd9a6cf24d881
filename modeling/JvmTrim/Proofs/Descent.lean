import Mathlib.Data.Bool.Basic
import Mathlib.Data.List.Perm.Subperm
import JvmTrim.Proofs.Invariance
import JvmTrim.Proofs.Semilattice

/-!
# What joins lose is finite

A join that changes a frame loses something for good. Of some slot less is known than before, or a
set has grown: the producers of a slot, or the offsets that a return address stands for. No later
join gives it back, because what covers the joined frame covers what was lost with it.

There is only so much to lose. A value has one of three precisions, it may be known not to be null,
and it becomes unusable at most once; a set of recorded offsets has at most as many members as there
are numbers of 32 bits, and a set of producers at most as many as there are ranks of origins. The
weight of a frame adds up what is left to lose. It is no measure of the frame alone, as it counts
against a bound on the ranks; that the bound is kept is one more condition that no instruction
breaks.

## Main definitions

* `Value.Loses`, `Slot.Loses`: less is known of a value or a slot
* `Frame.Falls`: a frame that covers another one and has lost something
* `Frame.weight`: what a frame can still lose
* `Frame.Below`: frames whose sets stay below a bound

## Main results

* `Frame.falls_of_joinsTo`: a join that changes a frame loses something
* `Frame.Falls.trans`: what is lost stays lost
* `Frame.Falls.weight_lt`: a loss leaves less to lose
* `frameInvariant_below`: no instruction exceeds the bound
-/

namespace JvmTrim

open Relation (ReflTransGen TransGen)

/-! ## Sets -/

namespace OrderedSet

variable {α : Type} {key : α → Nat} {a b c : OrderedSet key}

/-- Whether a set has the members of another one, and more. -/
def GrowsTo (old new : OrderedSet key) : Prop :=
  (∀ x, old.contains x = true → new.contains x = true) ∧
    ∃ x, new.contains x = true ∧ old.contains x = false

theorem GrowsTo.mono (h : a.GrowsTo b) (hc : ∀ x, b.contains x = true → c.contains x = true) :
    a.GrowsTo c := by
  obtain ⟨hkept, x, hx, hnew⟩ := h
  exact ⟨fun y hy => hc y (hkept y hy), x, hc x hx, hnew⟩

/-- A union that is not the first side has a further member. -/
theorem growsTo_union (h : a.union b ≠ a) : a.GrowsTo (a.union b) := by
  rw [Ne, union_eq_left_iff] at h
  push Not at h
  obtain ⟨x, hx, hnew⟩ := h
  exact ⟨fun y hy => contains_union.mpr (.inl hy), x, contains_union.mpr (.inr hx),
    Bool.not_eq_true _ ▸ hnew⟩

theorem nodup_keys (set : OrderedSet key) : (set.elements.map key).Nodup :=
  List.pairwise_map.mpr (set.ascending.imp fun hlt => Nat.ne_of_lt hlt)

theorem mem_keys_of_contains {set : OrderedSet key} {x : α} (h : set.contains x = true) :
    key x ∈ set.elements.map key :=
  List.mem_map.mpr (contains_iff.mp h)

theorem length_keys (set : OrderedSet key) : (set.elements.map key).length = set.size :=
  List.length_map _

theorem keys_subset (h : ∀ x, a.contains x = true → b.contains x = true) :
    a.elements.map key ⊆ b.elements.map key := by
  intro k hk
  obtain ⟨x, hx, rfl⟩ := List.mem_map.mp hk
  exact mem_keys_of_contains (h x (contains_of_mem hx))

theorem size_le (h : ∀ x, a.contains x = true → b.contains x = true) : a.size ≤ b.size := by
  rw [← length_keys, ← length_keys]
  exact (a.nodup_keys.subperm (keys_subset h)).length_le

theorem GrowsTo.size_lt (h : a.GrowsTo b) : a.size < b.size := by
  obtain ⟨hkept, x, hx, hnew⟩ := h
  have hfresh : key x ∉ a.elements.map key := fun hmem => by
    obtain ⟨y, hy, hkey⟩ := List.mem_map.mp hmem
    exact Bool.false_ne_true (hnew.symm.trans (contains_iff.mpr ⟨y, hy, hkey⟩))
  have hnodup : (key x :: a.elements.map key).Nodup := List.nodup_cons.mpr ⟨hfresh, a.nodup_keys⟩
  have hsub : key x :: a.elements.map key ⊆ b.elements.map key :=
    List.cons_subset.mpr ⟨mem_keys_of_contains hx, keys_subset hkept⟩
  have hle := (hnodup.subperm hsub).length_le
  rw [List.length_cons, length_keys, length_keys] at hle
  exact hle

/-- A set is no larger than a bound on its keys. -/
theorem size_le_of_key_lt {set : OrderedSet key} {bound : Nat}
    (h : ∀ x ∈ set.elements, key x < bound) : set.size ≤ bound := by
  have hsub : set.elements.map key ⊆ List.range bound := by
    intro k hk
    obtain ⟨x, hx, rfl⟩ := List.mem_map.mp hk
    exact List.mem_range.mpr (h x hx)
  have hle := (set.nodup_keys.subperm hsub).length_le
  rwa [length_keys, List.length_range] at hle

end OrderedSet

/-! ## Values -/

namespace Value

variable {a b c old new : Value}

/-- Whether less is known of `new` than of `old`. -/
inductive Loses (old new : Value) : Prop
  /-- It is less precise. -/
  | precision (h : new.precision.rank < old.precision.rank)
  /-- It is known not to be null no longer. -/
  | nullable (hold : old.isNotNull = true) (hnew : new.isNotNull = false)
  /-- It is unusable, and was not. -/
  | unusable (hold : old ≠ .top) (hnew : new = .top)
  /-- It stands for further return offsets. -/
  | offsets {before after : OffsetSet} (hold : old = .returnAddress before)
      (hnew : new = .returnAddress after) (h : before.GrowsTo after)

theorem Covers.trans (hab : a.Covers b) (hbc : b.Covers c) : a.Covers c :=
  calc a.join c
      = (a.join b).join c := by rw [hab]
    _ = a.join (b.join c) := join_assoc a b c
    _ = a.join b := by rw [hbc]
    _ = a := hab

theorem Covers.precision_le (h : a.Covers b) : a.precision.rank ≤ b.precision.rank := by
  have hle := (precision_join_le a b).2
  rwa [h] at hle

theorem Covers.eq_top (h : a.Covers top) : a = top := by
  cases a <;> first | rfl | cases h

/-- Only an unusable value or a return address covers a return address. -/
theorem Covers.of_returnAddress {offsets : OffsetSet} (h : a.Covers (returnAddress offsets)) :
    a = top ∨ ∃ more, a = returnAddress more ∧
      ∀ x, offsets.contains x = true → more.contains x = true := by
  cases a
  case top => exact .inl rfl
  case returnAddress more =>
    exact .inr ⟨more, rfl, OrderedSet.union_eq_left_iff.mp (returnAddress.inj h)⟩
  all_goals cases h

/-- What is lost stays lost under all that covers the rest. -/
theorem Loses.mono (h : a.Loses b) (hc : c.Covers b) : a.Loses c := by
  cases h with
  | precision h => exact .precision (Nat.lt_of_le_of_lt hc.precision_le h)
  | nullable ha hb =>
    refine .nullable ha (Bool.eq_false_iff.mpr fun hnotNull => ?_)
    exact Bool.false_ne_true (hb.symm.trans (hc.isNotNull hnotNull))
  | unusable ha hb => exact .unusable ha (hb ▸ hc).eq_top
  | @offsets before after ha hb h =>
    subst ha hb
    rcases hc.of_returnAddress with rfl | ⟨more, rfl, hmore⟩
    · exact .unusable (fun h => by cases h) rfl
    · exact .offsets rfl rfl (h.mono hmore)

/-- **A join that changes a value loses something.** -/
theorem loses_join (h : a.join b ≠ a) : a.Loses (a.join b) := by
  have habstract {α : Type} [DecidableEq α] {x y : Abstract α} (h : x.join y ≠ x) :
      (x.join y).precision.rank < x.precision.rank := by
    cases x <;> cases y <;> grind [Abstract.join, Abstract.precision, Precision.rank]
  cases a
  case top => exact absurd rfl h
  all_goals cases b
  case int.int x y => exact .precision (habstract fun heq => h (congrArg int heq))
  case long.long x y => exact .precision (habstract fun heq => h (congrArg long heq))
  case float.float x y => exact .precision (habstract fun heq => h (congrArg float heq))
  case double.double x y => exact .precision (habstract fun heq => h (congrArg double heq))
  case reference.reference x y =>
    by_cases hprecision : (reference (x.join y)).precision.rank < (reference x).precision.rank
    · exact .precision hprecision
    · refine .nullable ?_ ?_ <;> cases x <;> cases y <;>
        grind [join, Reference.join, Reference.isNotNull, isNotNull, precision, Precision.rank]
  case returnAddress.returnAddress x y =>
    exact .offsets rfl rfl (OrderedSet.growsTo_union fun heq => h (congrArg returnAddress heq))
  all_goals exact .unusable (fun h => by cases h) rfl

/-- How many offsets a return address can still get. -/
def offsetsLeft : Value → Nat
  | returnAddress offsets => UInt32.size - offsets.size
  | _ => 0

/-- What a value can still lose. -/
def weight (value : Value) : Nat :=
  value.precision.rank + value.isNotNull.toNat + (decide (value ≠ .top)).toNat + value.offsetsLeft

theorem Covers.offsetsLeft_le (h : a.Covers b) : a.offsetsLeft ≤ b.offsetsLeft := by
  cases a
  case returnAddress more =>
    cases b
    case returnAddress offsets =>
      have hsub := OrderedSet.union_eq_left_iff.mp (returnAddress.inj h)
      exact Nat.sub_le_sub_left (OrderedSet.size_le hsub) UInt32.size
    all_goals cases h
  all_goals exact Nat.zero_le _

theorem Covers.usable_le (h : a.Covers b) :
    (decide (a ≠ .top)).toNat ≤ (decide (b ≠ .top)).toNat := by
  refine Bool.toNat_le_toNat fun ha => ?_
  have hne : b ≠ .top := fun hb => of_decide_eq_true ha (hb ▸ h).eq_top
  exact decide_eq_true hne

theorem Covers.weight_le (h : a.Covers b) : a.weight ≤ b.weight := by
  have hprecision := h.precision_le
  have hnull : a.isNotNull.toNat ≤ b.isNotNull.toNat := Bool.toNat_le_toNat h.isNotNull
  have husable := h.usable_le
  have hoffsets := h.offsetsLeft_le
  unfold weight
  omega

/-- A loss leaves less to lose. -/
theorem Loses.weight_lt (h : old.Loses new) (hcovers : new.Covers old) (hbuilt : new.Built) :
    new.weight < old.weight := by
  have hprecision := hcovers.precision_le
  have hnull : new.isNotNull.toNat ≤ old.isNotNull.toNat := Bool.toNat_le_toNat hcovers.isNotNull
  have husable := hcovers.usable_le
  have hoffsets := hcovers.offsetsLeft_le
  unfold weight
  cases h with
  | precision h => omega
  | nullable hold hnew =>
    rw [hold, hnew] at *
    simp only [Bool.toNat_true, Bool.toNat_false]
    omega
  | unusable hold hnew =>
    have hnone : (decide (new ≠ .top)).toNat = 0 := by simp [hnew]
    have hsome : (decide (old ≠ .top)).toNat = 1 := by simp [hold]
    omega
  | @offsets before after hold hnew h =>
    have hlt : after.size - before.size > 0 := Nat.sub_pos_of_lt h.size_lt
    have hle : after.size ≤ UInt32.size :=
      OrderedSet.size_le_of_key_lt (hbuilt after (by rw [hnew]; rfl)).lt_size
    have hleft : new.offsetsLeft < old.offsetsLeft := by
      rw [hold, hnew]
      change UInt32.size - after.size < UInt32.size - before.size
      omega
    omega

end Value

/-! ## Slots -/

namespace Slot

variable {a b c old new : Slot} {bound : Nat}

/-- Whether less is known of `new` than of `old`: of the value, or of where it came from. -/
def Loses (old new : Slot) : Prop :=
  old.value.Loses new.value ∨ old.producers.GrowsTo new.producers

theorem Covers.trans (hab : a.Covers b) (hbc : b.Covers c) : a.Covers c := by
  obtain ⟨hvalue, hproducers⟩ := covers_iff.mp hab
  obtain ⟨hvalue', hproducers'⟩ := covers_iff.mp hbc
  exact covers_iff.mpr ⟨hvalue.trans hvalue', fun x hx => hproducers x (hproducers' x hx)⟩

theorem Loses.mono (h : a.Loses b) (hc : c.Covers b) : a.Loses c := by
  obtain ⟨hvalue, hproducers⟩ := covers_iff.mp hc
  exact h.imp (fun h => h.mono hvalue) fun h => h.mono hproducers

theorem loses_join (h : a.join b ≠ a) : a.Loses (a.join b) := by
  by_cases hvalue : a.value.join b.value = a.value
  · refine .inr (OrderedSet.growsTo_union fun hproducers => h ?_)
    exact congrArg₂ Slot.mk hvalue hproducers
  · exact .inl (Value.loses_join hvalue)

/-- What a slot can still lose, if its producers have ranks below a bound. -/
def weight (bound : Nat) (slot : Slot) : Nat :=
  slot.value.weight + (bound - slot.producers.size)

theorem Covers.weight_le (h : a.Covers b) : a.weight bound ≤ b.weight bound := by
  obtain ⟨hvalue, hproducers⟩ := covers_iff.mp h
  have hle := hvalue.weight_le
  have hsize := OrderedSet.size_le hproducers
  unfold weight
  omega

/-- Whether the sets of a slot stay below a bound. -/
def Below (bound : Nat) (slot : Slot) : Prop :=
  slot.value.Built ∧ ∀ origin ∈ slot.producers.elements, origin.rank < bound

theorem Loses.weight_lt (h : old.Loses new) (hcovers : new.Covers old)
    (hbelow : new.Below bound) : new.weight bound < old.weight bound := by
  obtain ⟨hvalue, hproducers⟩ := covers_iff.mp hcovers
  have hle := hvalue.weight_le
  have hsize := OrderedSet.size_le hproducers
  have hroom := OrderedSet.size_le_of_key_lt hbelow.2
  unfold weight
  rcases h with h | h
  · have hlt := h.weight_lt hvalue hbelow.1
    omega
  · have hlt := h.size_lt
    omega

end Slot

/-! ## Frames -/

/-- Whether two slots stand at the same place in two frames. -/
def Frame.Opposite (old new : Frame) (a b : Slot) : Prop :=
  ∃ i : Nat, old.locals.slots[i]? = some a ∧ new.locals.slots[i]? = some b ∨
    old.stack.words[i]? = some a ∧ new.stack.words[i]? = some b

/-- Whether a frame covers another one and has lost something: somewhere less is known of a value,
or a value has further producers. -/
structure Frame.Falls (old new : Frame) : Prop where
  size_eq : new.locals.size = old.locals.size
  covers : new.Covers old
  loses : ∃ a b, old.Opposite new a b ∧ a.Loses b

namespace Frame

variable {a b c old new : Frame}

theorem Covers.trans (hab : a.Covers b) (hbc : b.Covers c) : a.Covers c where
  height_eq := hab.height_eq.trans hbc.height_eq
  slot i x hx := by
    obtain ⟨y, hy, hxy⟩ := hab.slot i x hx
    obtain ⟨z, hz, hyz⟩ := hbc.slot i y hy
    exact ⟨z, hz, hxy.trans hyz⟩
  word i x hx := by
    obtain ⟨y, hy, hxy⟩ := hab.word i x hx
    obtain ⟨z, hz, hyz⟩ := hbc.word i y hy
    exact ⟨z, hz, hxy.trans hyz⟩

/-- **What is lost stays lost** in all frames that cover the rest. -/
theorem Falls.mono (h : a.Falls b) (hsize : c.locals.size = b.locals.size) (hc : c.Covers b) :
    a.Falls c := by
  obtain ⟨x, y, ⟨i, hxy⟩, hloses⟩ := h.loses
  refine ⟨hsize.trans h.size_eq, hc.trans h.covers, ?_⟩
  have habove {ys zs : Array Slot} (hsize : zs.size = ys.size) (hy : ys[i]? = some y)
      (hc : ∀ (i : Nat) z, zs[i]? = some z → ∃ y, ys[i]? = some y ∧ z.Covers y) :
      ∃ z, zs[i]? = some z ∧ z.Covers y := by
    have hlt : i < zs.size := hsize ▸ (Array.getElem?_eq_some_iff.mp hy).1
    obtain ⟨y', hy', hcovers⟩ := hc i zs[i] (Array.getElem?_eq_getElem hlt)
    cases hy.symm.trans hy'
    exact ⟨zs[i], Array.getElem?_eq_getElem hlt, hcovers⟩
  rcases hxy with ⟨hx, hy⟩ | ⟨hx, hy⟩
  · obtain ⟨z, hz, hcovers⟩ := habove hsize hy hc.slot
    exact ⟨x, z, ⟨i, .inl ⟨hx, hz⟩⟩, hloses.mono hcovers⟩
  · obtain ⟨z, hz, hcovers⟩ := habove hc.height_eq hy hc.word
    exact ⟨x, z, ⟨i, .inr ⟨hx, hz⟩⟩, hloses.mono hcovers⟩

theorem Falls.trans (hab : a.Falls b) (hbc : b.Falls c) : a.Falls c :=
  hab.mono hbc.size_eq hbc.covers

theorem size_le_of_joinsTo (h : ReflTransGen JoinsTo old new) :
    new.locals.size ≤ old.locals.size := by
  induction h with
  | refl => exact Nat.le_refl _
  | tail _ hjoins ih =>
    obtain ⟨-, offset, frame, hjoined⟩ := hjoins
    obtain ⟨-, rfl⟩ := joinAt_eq_ok_iff.mp hjoined
    refine Nat.le_trans ?_ ih
    simp only [Locals.size, Locals.join, Array.size_zipWith]
    exact Nat.min_le_left _ _

/-- An array that a join changes, but not in size, has a slot that loses something. -/
theorem exists_loses_zipWith {as bs : Array Slot} (hne : as.zipWith Slot.join bs ≠ as)
    (hsize : (as.zipWith Slot.join bs).size = as.size) :
    ∃ (i : Nat) (a b : Slot), as[i]? = some a ∧ (as.zipWith Slot.join bs)[i]? = some b ∧
      a.Loses b := by
  rw [Ne, zipWith_eq_left_iff] at hne
  push Not at hne
  obtain ⟨i, a, ha, hchanged⟩ := hne
  have hlt : i < (as.zipWith Slot.join bs).size := hsize ▸ (Array.getElem?_eq_some_iff.mp ha).1
  obtain ⟨x, b, hx, hb, heq⟩ := Array.getElem?_zipWith_eq_some.mp (Array.getElem?_eq_getElem hlt)
  cases ha.symm.trans hx
  refine ⟨i, a, _, ha, Array.getElem?_eq_getElem hlt, ?_⟩
  rw [← heq]
  exact Slot.loses_join (hchanged b hb)

/-- A join that changes a frame, but not the number of variables, loses something. -/
theorem JoinsTo.falls (h : old.JoinsTo new) (hsize : new.locals.size = old.locals.size) :
    old.Falls new := by
  obtain ⟨hne, offset, frame, hjoined⟩ := h
  refine ⟨hsize, (covers_joinAt hjoined).2 old old.covers_refl, ?_⟩
  obtain ⟨hheight, rfl⟩ := joinAt_eq_ok_iff.mp hjoined
  by_cases hlocals : old.locals.slots.zipWith Slot.join frame.locals.slots = old.locals.slots
  · have hwords : old.stack.words.zipWith Slot.join frame.stack.words ≠ old.stack.words :=
      fun heq => hne (congrArg₂ Frame.mk (congrArg Locals.mk hlocals) (congrArg Stack.mk heq))
    have hsame : (old.stack.words.zipWith Slot.join frame.stack.words).size =
        old.stack.words.size := by
      rw [Array.size_zipWith]
      exact Nat.min_eq_left (Nat.le_of_eq hheight)
    obtain ⟨i, a, b, ha, hb, hloses⟩ := exists_loses_zipWith hwords hsame
    exact ⟨a, b, ⟨i, .inr ⟨ha, hb⟩⟩, hloses⟩
  · obtain ⟨i, a, b, ha, hb, hloses⟩ := exists_loses_zipWith hlocals hsize
    exact ⟨a, b, ⟨i, .inl ⟨ha, hb⟩⟩, hloses⟩

/-- **Joins that change a frame lose something**, as long as no variable is dropped. -/
theorem falls_of_joinsTo (h : TransGen JoinsTo old new)
    (hsize : new.locals.size = old.locals.size) : old.Falls new := by
  induction h with
  | single h => exact h.falls hsize
  | tail hmiddle hlast ih =>
    have hfirst := size_le_of_joinsTo hmiddle.to_reflTransGen
    have hsecond := size_le_of_joinsTo (.single hlast)
    exact (ih (by omega)).trans (hlast.falls (by omega))

/-! ## Weights -/

/-- What a frame can still lose, if its producers have ranks below a bound. -/
def weight (bound : Nat) (frame : Frame) : Nat :=
  (frame.locals.slots.toList.map (Slot.weight bound)).sum +
    (frame.stack.words.toList.map (Slot.weight bound)).sum

/-- The variables of a frame of `size` variables whose sets stay below a bound. -/
def BelowLocals (size bound : Nat) (locals : Locals) : Prop :=
  locals.size = size ∧ ∀ slot ∈ locals.slots, slot.Below bound

/-- Whether a frame has `size` variables and sets that stay below a bound. -/
def Below (size bound : Nat) (frame : Frame) : Prop :=
  frame.Meets (BelowLocals size bound) Value.Built
    (fun producers => ∀ origin ∈ producers.elements, origin.rank < bound)

section Sums

variable {news olds : List Slot} {bound : Nat}

theorem sum_weight_le (h : List.Forall₂ Slot.Covers news olds) :
    (news.map (Slot.weight bound)).sum ≤ (olds.map (Slot.weight bound)).sum := by
  induction h with
  | nil => exact Nat.le_refl _
  | cons hcovers _ ih =>
    rw [List.map_cons, List.map_cons, List.sum_cons, List.sum_cons]
    exact Nat.add_le_add hcovers.weight_le ih

theorem sum_weight_lt (h : List.Forall₂ Slot.Covers news olds) {i : Nat} {a b : Slot}
    (ha : olds[i]? = some a) (hb : news[i]? = some b) (hlt : b.weight bound < a.weight bound) :
    (news.map (Slot.weight bound)).sum < (olds.map (Slot.weight bound)).sum := by
  induction h generalizing i with
  | nil => cases ha
  | cons hcovers hrest ih =>
    rw [List.map_cons, List.map_cons, List.sum_cons, List.sum_cons]
    cases i with
    | zero =>
      cases ha
      cases hb
      exact Nat.add_lt_add_of_lt_of_le hlt (sum_weight_le hrest)
    | succ i => exact Nat.add_lt_add_of_le_of_lt hcovers.weight_le (ih ha hb)

end Sums

theorem forall₂_of_covers {news olds : Array Slot} (hsize : news.size = olds.size)
    (h : ∀ (i : Nat) (a : Slot), news[i]? = some a → ∃ b, olds[i]? = some b ∧ a.Covers b) :
    List.Forall₂ Slot.Covers news.toList olds.toList := by
  refine List.forall₂_iff_get.mpr ⟨hsize, fun i hi hi' => ?_⟩
  obtain ⟨b, hb, hcovers⟩ := h i news[i] (Array.getElem?_eq_getElem hi)
  rw [Array.getElem?_eq_getElem hi'] at hb
  cases hb
  exact hcovers

theorem Covers.weight_le {bound : Nat} (h : new.Covers old)
    (hsize : new.locals.size = old.locals.size) : new.weight bound ≤ old.weight bound :=
  Nat.add_le_add (sum_weight_le (forall₂_of_covers hsize h.slot))
    (sum_weight_le (forall₂_of_covers h.height_eq h.word))

/-- **A loss leaves less to lose.** -/
theorem Falls.weight_lt {size bound : Nat} (h : old.Falls new) (hbelow : new.Below size bound) :
    new.weight bound < old.weight bound := by
  have hlocals := forall₂_of_covers h.size_eq h.covers.slot
  have hwords := forall₂_of_covers h.covers.height_eq h.covers.word
  obtain ⟨a, b, ⟨i, hab⟩, hloses⟩ := h.loses
  rcases hab with ⟨ha, hb⟩ | ⟨ha, hb⟩
  · obtain ⟨_, hold, hcovers⟩ := h.covers.slot i b hb
    cases ha.symm.trans hold
    have hlt := hloses.weight_lt hcovers (hbelow.locals.2 b (Array.mem_of_getElem? hb))
    exact Nat.add_lt_add_of_lt_of_le
      (sum_weight_lt hlocals (by simpa using ha) (by simpa using hb) hlt) (sum_weight_le hwords)
  · obtain ⟨_, hold, hcovers⟩ := h.covers.word i b hb
    cases ha.symm.trans hold
    have hmem : b ∈ new.stack.view := by
      simpa [Stack.view] using Array.mem_of_getElem? hb
    have hlt := hloses.weight_lt hcovers (hbelow.words b hmem)
    exact Nat.add_lt_add_of_le_of_lt (sum_weight_le hlocals)
      (sum_weight_lt hwords (by simpa using ha) (by simpa using hb) hlt)

end Frame

/-! ## The bound -/

theorem Locals.forall_mem_store {P : Slot → Prop} {locals locals' : Locals} {index : UInt16}
    {value : Value} {producers : OriginSet} (hold : ∀ slot ∈ locals.slots, P slot)
    (hcut : ∀ slot, P slot → P (cut slot)) (hvalue : P ⟨value, producers⟩)
    (htop : P (Slot.top producers)) (h : locals.store index value producers = .ok locals') :
    ∀ slot ∈ locals'.slots, P slot := by
  obtain ⟨-, -, hslots⟩ := store_eq_ok h
  intro slot hslot
  obtain ⟨i, hi⟩ := Array.mem_iff_getElem?.mp hslot
  rw [hslots] at hi
  split at hi
  · cases hi
    exact hvalue
  · split at hi
    · cases hi
      exact htop
    · split at hi
      · obtain ⟨old, hmem, rfl⟩ := Option.map_eq_some_iff.mp hi
        exact hcut old (hold old (Array.mem_of_getElem? hmem))
      · exact hold slot (Array.mem_of_getElem? hi)

theorem Value.built_top : Value.top.Built := by
  intro offsets h
  cases h

theorem Value.built_of_kind {value : Value} {kind : Kind} (h : value.kind? = some kind) :
    value.Built := by
  intro offsets hoffsets
  cases value
  case top | returnAddress => cases h
  all_goals cases hoffsets

/-- No instruction makes a set exceed a bound on the ranks of recorded instructions. -/
theorem frameInvariant_below {bound : Nat} (hbound : 1 + 2 * UInt32.size ≤ bound) (size : Nat) :
    FrameInvariant (Frame.BelowLocals size bound) Value.Built
      (fun producers => ∀ origin ∈ producers.elements, origin.rank < bound) where
  top := Value.built_top
  ofKind := Value.built_of_kind
  returnAddress next := by
    intro offsets h
    cases h
    exact .single next
  join ha hb := ha.join hb
  entry := by
    intro origin horigin
    rw [List.mem_singleton.mp horigin]
    exact Nat.lt_of_lt_of_le (Nat.add_pos_left Nat.one_pos _) hbound
  own offset := by
    intro origin horigin
    rw [List.mem_singleton.mp horigin]
    have hlt : recordedOffset offset < UInt32.size := Nat.mod_lt _ (by decide)
    change 1 + UInt32.size + recordedOffset offset < bound
    omega
  union ha hb := OrderedSet.forall_mem_union ha hb
  load hl hslot := (hl.2 _ hslot).1
  store hl hvalue hproducers hs := by
    refine ⟨(Locals.store_eq_ok hs).2.1.trans hl.1, Locals.forall_mem_store hl.2 ?_
      ⟨hvalue, hproducers⟩ ⟨Value.built_top, hproducers⟩ hs⟩
    intro slot hslot
    unfold Locals.cut
    split
    · exact ⟨Value.built_top, hslot.2⟩
    · exact hslot
  forget symbol hl := by
    refine ⟨by simpa [Locals.size, Locals.forget] using hl.1, fun slot hslot => ?_⟩
    obtain ⟨old, hold, rfl⟩ := Array.mem_map.mp hslot
    obtain ⟨hvalue, hproducers⟩ := hl.2 old hold
    refine ⟨?_, hproducers⟩
    change (old.value.withoutSymbol symbol).Built
    unfold Value.withoutSymbol
    split
    · cases old.value <;> exact Value.built_top
    · exact hvalue
  joinLocals ha hb := by
    refine ⟨?_, fun slot hslot => ?_⟩
    · have hsizes := ha.1.trans hb.1.symm
      exact (Array.size_zipWith ..).trans
        ((Nat.min_eq_left (Nat.le_of_eq hsizes)).trans ha.1)
    · obtain ⟨i, hi⟩ := Array.mem_iff_getElem?.mp hslot
      obtain ⟨x, y, hx, hy, rfl⟩ := Array.getElem?_zipWith_eq_some.mp hi
      obtain ⟨hvalue, hproducers⟩ := ha.2 x (Array.mem_of_getElem? hx)
      obtain ⟨hvalue', hproducers'⟩ := hb.2 y (Array.mem_of_getElem? hy)
      exact ⟨hvalue.join hvalue', OrderedSet.forall_mem_union hproducers hproducers'⟩

end JvmTrim
